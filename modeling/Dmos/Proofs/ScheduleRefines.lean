import Dmos.Lib.Stutter
import Dmos.ScheduleSteps
import Dmos.Proofs.SpinExclusion
import Dmos.Proofs.Exclusion

namespace Dmos.Proofs.ScheduleRefines
open Lib ScheduleSteps Smp Steps Exclusion

section Lock

open Spinlock SpinExclusion

variable {lock : Word} {s : Spinlock.State Nat} {c : Nat}

/-- The other cores keep their place in a routine, and the lock if they have it. -/
def Bystanders (c : Nat) (s s' : Spinlock.State Nat) : Prop :=
  ∀ d, d ≠ c → (s'.core d).pc = (s.core d).pc ∧ s'.holds d = s.holds d

theorem call_spec (hi : SpinExclusion.Inv lock s) (r : Routine) (w1 w2 : BitVec 32)
    (hpc : (s.core c).pc = none) (hh : r = .spinUnlock → s.holds c = true) :
    ∃ s', Spinlock.step lock s (.call c r w1 w2) = some s' ∧ SpinExclusion.Inv lock s' ∧
      (s'.core c).pc = some (r, 0) ∧ s'.holds = s.holds ∧ Bystanders c s s' := by
  have hstep : Spinlock.step lock s (.call c r w1 w2) = some ⟨s.word,
      Function.update s.core c ⟨some (r, 0), lock, w1, w2, (s.core c).monitor, false⟩,
      s.holds⟩ := if_pos ⟨hpc, hh⟩
  refine ⟨_, hstep, step_inv hi hstep, by simp, rfl, fun d hd => ?_⟩
  simp [hd]

/-- An instruction of core `c`, for what it does to the core and to the holder. -/
theorem instr_spec (hi : SpinExclusion.Inv lock s) (ok : Bool) (hpc : (s.core c).pc ≠ none) :
    ∃ s' k e, Spinlock.step lock s (.step c ok) = some s' ∧ SpinExclusion.Inv lock s' ∧
      exec lock s.word ok (s.core c) = some (k, e) ∧ s'.core c = k ∧
      s'.holds c = e.holds (s.holds c) ∧ Bystanders c s s' := by
  obtain ⟨k, e, hexec, _, _⟩ := executes ok hpc (hi.places c)
  have hstep : Spinlock.step lock s (.step c ok) = some
      { word := e.word s.word
        core := fun d => if d = c then k else { s.core d with monitor := e.monitor (s.core d).monitor }
        holds := Function.update s.holds c (e.holds (s.holds c)) } := by
    rw [Spinlock.step, hexec]
    rfl
  refine ⟨_, k, e, hstep, step_inv hi hstep, hexec, by simp, by simp, fun d hd => ?_⟩
  simp [hd]

/-- An instruction stays in its routine, or is the return and stores nothing. -/
theorem exec_routine {word : BitVec 32} {ok : Bool} {k k' : Spinlock.Core} {e : Effect} {r : Routine}
    {i : Nat} (h : exec lock word ok k = some (k', e)) (hpc : k.pc = some (r, i)) :
    (∃ j, k'.pc = some (r, j)) ∨ (r.code[i]? = some .ret ∧ k'.pc = none ∧ e = .quiet) := by
  rw [exec] at h
  obtain ⟨a, ha, h⟩ := Option.bind_eq_some_iff.mp h
  have hcode : r.code[i]? = some a := by simpa [Core.instr, hpc] using ha
  cases a with
  | mov rd imm =>
    cases h
    left
    cases rd <;> exact ⟨i + 1, by simp [Core.next, Core.set, hpc]⟩
  | ldaxr rt =>
    simp only at h
    split at h
    · cases h
      left
      cases rt <;> exact ⟨i + 1, by simp [Core.next, Core.set, hpc]⟩
    · cases h
  | cbnz rt target =>
    cases h
    left
    split
    · exact ⟨target, by simp [Core.jump, hpc]⟩
    · exact ⟨i + 1, by simp [Core.next, hpc]⟩
  | stlxr rs rt =>
    simp only at h
    split at h
    · cases h
    · split at h
      · cases h
        left
        cases rs <;> exact ⟨i + 1, by simp [Core.next, Core.set, hpc]⟩
      · cases h
        left
        cases rs <;> exact ⟨i + 1, by simp [Core.next, Core.set, hpc]⟩
  | stlr rt =>
    simp only at h
    split at h
    · cases h
      exact .inl ⟨i + 1, by simp [Core.next, hpc]⟩
    · cases h
  | dmb =>
    cases h
    exact .inl ⟨i + 1, by simp [Core.next, hpc]⟩
  | ret =>
    cases h
    exact .inr ⟨hcode, rfl, rfl⟩

/-- `spin_lock` returns with the lock. -/
theorem lock_spec (hi : SpinExclusion.Inv lock s) (ok : Bool) {i : Nat}
    (hpc : (s.core c).pc = some (.spinLock, i)) :
    ∃ s', Spinlock.step lock s (.step c ok) = some s' ∧ SpinExclusion.Inv lock s' ∧
      ((∃ j, (s'.core c).pc = some (.spinLock, j)) ∨ ((s'.core c).pc = none ∧ s'.holds c = true)) ∧
      Bystanders c s s' := by
  obtain ⟨s', k, e, hstep, hi', hexec, rfl, hholds, hby⟩ := instr_spec (c := c) hi ok (by simp [hpc])
  refine ⟨s', hstep, hi', ?_, hby⟩
  rcases exec_routine hexec hpc with ⟨j, hj⟩ | ⟨hret, hnone, rfl⟩
  · exact .inl ⟨j, hj⟩
  · refine .inr ⟨hnone, ?_⟩
    rw [hholds]
    exact lockReturns_spec hi ⟨i, hpc, hret⟩

/-- `spin_unlock` gives the lock back with its third instruction. -/
theorem unlock_spec (hi : SpinExclusion.Inv lock s) (ok : Bool) {i : Nat}
    (hpc : (s.core c).pc = some (.spinUnlock, i)) :
    ∃ s', Spinlock.step lock s (.step c ok) = some s' ∧ SpinExclusion.Inv lock s' ∧ i < 4 ∧
      (s'.core c).pc = (if i = 3 then none else some (.spinUnlock, i + 1)) ∧
      s'.holds c = (if i = 2 then false else s.holds c) ∧ Bystanders c s s' := by
  obtain ⟨s', k, e, hstep, hi', hexec, hk, hholds, hby⟩ := instr_spec (c := c) hi ok (by simp [hpc])
  have hlocal := hi.places c
  refine ⟨s', hstep, hi', ?_⟩
  rw [hk, hholds]
  cases hcore : s.core c with
  | mk pc x0 w1 w2 monitor acquired =>
    rw [hcore] at hpc hlocal hexec
    cases hpc
    match i, hlocal with
    | 0, _ => cases hexec; exact ⟨by decide, rfl, rfl, hby⟩
    | 1, _ => cases hexec; exact ⟨by decide, rfl, rfl, hby⟩
    | 2, h2 =>
      cases (if_pos h2.1).symm.trans hexec
      exact ⟨by decide, rfl, rfl, hby⟩
    | 3, _ => cases hexec; exact ⟨by decide, rfl, rfl, hby⟩

end Lock

section Quiet

/-- Two task tables that differ in the states of the tasks at most. -/
structure Alike (k k' : Kernel) : Prop where
  count : k.taskCount = k'.taskCount
  cpuDec : k.cpuDec = k'.cpuDec
  id : ∀ t, (k.taskList t).id = (k'.taskList t).id
  cpuInfo : ∀ t, (k.taskList t).cpuInfo = (k'.taskList t).cpuInfo
  counter : ∀ t, (k.taskList t).counter = (k'.taskList t).counter

theorem Alike.refl (k : Kernel) : Alike k k :=
  ⟨rfl, rfl, fun _ => rfl, fun _ => rfl, fun _ => rfl⟩

variable {k k' : Kernel}

theorem Alike.setState (h : Alike k k') (i : Nat) (st : TaskState) : Alike (k.setState i st) k' where
  count := h.count
  cpuDec := h.cpuDec
  id := fun t => by simpa using h.id t
  cpuInfo := fun t => by simpa using h.cpuInfo t
  counter := fun t => by simpa using h.counter t

theorem Alike.symm (h : Alike k k') : Alike k' k where
  count := h.count.symm
  cpuDec := h.cpuDec.symm
  id := fun t => (h.id t).symm
  cpuInfo := fun t => (h.cpuInfo t).symm
  counter := fun t => (h.counter t).symm

theorem Alike.setCounter (h : Alike k k') (i n : Nat) :
    Alike (k.setCounter i n) (k'.setCounter i n) where
  count := h.count
  cpuDec := h.cpuDec
  id := fun t => by simpa using h.id t
  cpuInfo := fun t => by simpa using h.cpuInfo t
  counter := fun t => by simp [h.counter t]

theorem Alike.setCtx (h : Alike k k') (i : Nat) (f : TrapFrame) :
    Alike (k.setCtx i f) (k'.setCtx i f) where
  count := h.count
  cpuDec := by simp only [Kernel.setCtx, Kernel.modCpu, h.cpuDec]
  id := h.id
  cpuInfo := h.cpuInfo
  counter := h.counter

variable {smp c : Nat} {o s s' : Smp.State}

/-- A step outside `_schedule` reads no task state and writes none. -/
structure SameStep (c : Nat) (o o' s s' : Smp.State) : Prop where
  alike : Alike o'.kernel s'.kernel
  core : o'.core c = s'.core c
  others : ∀ d, d ≠ c → o'.core d = o.core d
  others' : ∀ d, d ≠ c → s'.core d = s.core d
  states : ∀ t, (o'.kernel.taskList t).state = (o.kernel.taskList t).state
  states' : ∀ t, (s'.kernel.taskList t).state = (s.kernel.taskList t).state

theorem irq_same {frame : TrapFrame} (h : s.irq c frame = some s') (ha : Alike o.kernel s.kernel)
    (hcore : o.core c = s.core c) :
    ∃ o', o.irq c frame = some o' ∧ SameStep c o o' s s' := by
  have hcan : o.canTrap c frame = s.canTrap c frame := by simp only [Smp.State.canTrap, hcore]
  simp only [Smp.State.irq] at h ⊢
  rw [hcan]
  split at h
  · rename_i hc
    rw [if_pos hc]
    simp only [Option.bind_eq_bind, Option.bind_eq_some_iff, Kernel.saveCpuCtx,
      Option.map_eq_some_iff, Option.some.injEq] at h
    obtain ⟨u, hu, _, ⟨cpu, hcpu, rfl⟩, rfl⟩ := h
    simp only [Option.bind_eq_bind, hcore, hu, Kernel.saveCpuCtx, ha.cpuInfo, hcpu, Option.map_some,
      Option.bind_some]
    exact ⟨_, rfl, ha.setCtx cpu frame, by simp, fun d hd => by simp [hd],
      fun d hd => by simp [hd], by simp, by simp⟩
  · rename_i hc
    rw [if_neg hc]
    cases h
    exact ⟨o, rfl, ha, hcore, fun _ _ => rfl, fun _ _ => rfl, fun _ => rfl, fun _ => rfl⟩

theorem tickTest_eq (smp : Nat) (s : Smp.State) (c t : Nat) : Smp.State.tickTest smp s c t =
    if (s.kernel.taskList t).counter > 0 then s.setCore c { s.core c with pc := .user }
    else if s.kernel.taskCount = smp then
      (s.withKernel (s.kernel.setCounter t sysTaskTick)).setCore c { s.core c with pc := .user }
    else (s.withKernel (s.kernel.setCounter t sysTaskTick)).setCore c
      { s.core c with pc := .entered t } := rfl

theorem tickTest_same (smp t : Nat) (ha : Alike o.kernel s.kernel) (hcore : o.core c = s.core c) :
    SameStep c o (Smp.State.tickTest smp o c t) s (Smp.State.tickTest smp s c t) := by
  have hset := ha.setCounter t sysTaskTick
  rw [tickTest_eq, tickTest_eq, ha.counter t, ha.count]
  by_cases hn : (s.kernel.taskList t).counter > 0
  · rw [if_pos hn, if_pos hn]
    exact ⟨ha, by simp [hcore], fun d hd => by simp [hd], fun d hd => by simp [hd], by simp, by simp⟩
  · rw [if_neg hn, if_neg hn]
    by_cases hq : s.kernel.taskCount = smp
    · rw [if_pos hq, if_pos hq]
      exact ⟨hset, by simp [hcore], fun d hd => by simp [hd], fun d hd => by simp [hd], by simp,
        by simp⟩
    · rw [if_neg hq, if_neg hq]
      exact ⟨hset, by simp [hcore], fun d hd => by simp [hd], fun d hd => by simp [hd], by simp,
        by simp⟩

theorem advance_same (h : s.advance smp c = some s') (ha : Alike o.kernel s.kernel)
    (hcore : o.core c = s.core c) (hready : Ready (s.core c))
    (hout : ∀ t, (s.core c).pc ≠ .entered t) :
    ∃ o', o.advance smp c = some o' ∧ SameStep c o o' s s' := by
  unfold Smp.State.advance at h ⊢
  rw [hcore]
  cases hp : (s.core c).pc with
  | boot => exact absurd hp hready.1
  | adopted => exact absurd hp hready.2
  | user =>
    simp only [hp, Option.some.injEq] at h
    subst h
    exact ⟨o, rfl, ha, hcore, fun _ _ => rfl, fun _ _ => rfl, fun _ => rfl, fun _ => rfl⟩
  | trapped =>
    simp only [hp, Option.map_eq_some_iff] at h
    obtain ⟨t, ht, rfl⟩ := h
    have hdec : Alike (o.kernel.decCounter t) (s.kernel.decCounter t) := by
      simp only [Kernel.decCounter, ha.counter t]
      exact ha.setCounter t _
    simp only [ht, Option.map_some]
    exact ⟨_, rfl, hdec, by simp, fun d hd => by simp [hd], fun d hd => by simp [hd],
      by simp [Kernel.decCounter], by simp [Kernel.decCounter]⟩
  | ticked t =>
    simp only [hp, Option.some.injEq] at h
    subst h
    exact ⟨_, rfl, tickTest_same smp t ha hcore⟩
  | entered t => exact absurd hp (hout t)
  | picked prev next =>
    simp only [hp, Smp.State.install, Option.map_eq_some_iff] at h
    obtain ⟨f, hf, rfl⟩ := h
    have hf' : o.kernel.switchContextEl next = some f := by
      rw [← hf]
      simp only [Kernel.switchContextEl, ha.cpuInfo, ha.cpuDec]
    simp only [Smp.State.install, hf', Option.map_some]
    exact ⟨_, rfl, ha, by simp [hcore], fun d hd => by simp [hd], fun d hd => by simp [hd],
      by simp, by simp⟩

end Quiet

section Relation

variable {lock : Word} {smp c : Nat} {f f' : ScheduleSteps.State} {s s' : Smp.State}

/-- The task states after the stores that the critical section has made so far. -/
def stored (curr : Nat) (st : Nat → TaskState) : Spot → Nat → TaskState
  | .parked _ => Function.update st curr .waiting
  | .marked n | .done n | .unlocking n => Function.update (Function.update st curr .waiting) n .running
  | _ => st

/-- The core after them. -/
def storedCore (x : Smp.Core) : Spot → Smp.Core
  | .done n | .unlocking n => { x with current := some n }
  | _ => x

/-- What the loop has found out. -/
def Progress (k : Kernel) (curr : Nat) : Spot → Prop
  | .locking => True
  | .loop i next => 1 ≤ i ∧ i ≤ k.taskCount ∧
    k.scan curr = k.scanFrom curr (k.taskCount - i) i next
  | .found n | .parked n | .marked n | .done n | .unlocking n => k.scan curr = (n, true)

/-- Where the core is in the routines of the lock while it holds it. -/
def LockPlace (pc : Option (Spinlock.Routine × Nat)) : Spot → Prop
  | .unlocking _ => ∃ i < 3, pc = some (.spinUnlock, i)
  | _ => pc = none

/-- How a core and its atomic counterpart correspond. The counterpart is still
before the critical section until the `stlr` of `spin_unlock`, and past it from
then on. -/
inductive Place (f : ScheduleSteps.State) (s : Smp.State) (c : Nat) : Prop where
  | outside (hspot : f.spot c = none) (hcore : f.os.core c = s.core c)
      (hfree : f.spin.holds c = false) (hspin : (f.spin.core c).pc = none)
  | locking (curr : Nat) (hspot : f.spot c = some .locking) (hcore : f.os.core c = s.core c)
      (hpc : (s.core c).pc = .entered curr)
      (hspin : (∃ i, (f.spin.core c).pc = some (.spinLock, i)) ∨
        ((f.spin.core c).pc = none ∧ f.spin.holds c = true))
  | inside (curr : Nat) (p : Spot) (hspot : f.spot c = some p) (hin : p ≠ .locking)
      (hcore : f.os.core c = storedCore (s.core c) p) (hpc : (s.core c).pc = .entered curr)
      (hheld : f.spin.holds c = true) (hspin : LockPlace (f.spin.core c).pc p)
      (hprog : Progress s.kernel curr p)
  | released (curr n : Nat) (hspot : f.spot c = some (.unlocking n))
      (hpc : (f.os.core c).pc = .entered curr) (hn : n ≠ 2 ^ 32 - 1)
      (hcore : s.core c = { f.os.core c with pc := .picked curr n })
      (hfree : f.spin.holds c = false)
      (hspin : (f.spin.core c).pc = some (.spinUnlock, 3) ∨ (f.spin.core c).pc = none)

/-- The statement-level machine and the atomic one. -/
structure Refines (lock : Word) (smp : Nat) (f : ScheduleSteps.State) (s : Smp.State) : Prop where
  settled : Settled smp s
  spin : SpinExclusion.Inv lock f.spin
  alike : Alike f.os.kernel s.kernel
  place : ∀ c < smp, Place f s c
  held : ∀ c < smp, f.spin.holds c = true → ∀ curr p, (s.core c).pc = .entered curr →
    f.spot c = some p → ∀ t, (f.os.kernel.taskList t).state =
      stored curr (fun t => (s.kernel.taskList t).state) p t
  free : (∀ c < smp, f.spin.holds c = false) → ∀ t, (f.os.kernel.taskList t).state =
    (s.kernel.taskList t).state

theorem scanFrom_congr {k k' : Kernel} (hcount : k'.taskCount = k.taskCount)
    (hst : ∀ t, (k'.taskList t).state = (k.taskList t).state) (id n i next : Nat) :
    k'.scanFrom id n i next = k.scanFrom id n i next := by
  induction n generalizing i next with
  | zero => rfl
  | succ n ih => simp only [Kernel.scanFrom, hcount, hst, ih]

theorem Progress.congr {k k' : Kernel} {curr : Nat} {p : Spot} (h : Progress k curr p)
    (hcount : k'.taskCount = k.taskCount)
    (hst : ∀ t, (k'.taskList t).state = (k.taskList t).state) : Progress k' curr p := by
  cases p with
  | locking => trivial
  | loop i next =>
    simpa only [Progress, Kernel.scan, hcount, scanFrom_congr hcount hst] using h
  | _ => simpa only [Progress, Kernel.scan, hcount, scanFrom_congr hcount hst] using h

/-- A step of core `c` does nothing to what another core is at. -/
structure Beside (smp c : Nat) (f f' : ScheduleSteps.State) (s s' : Smp.State) : Prop where
  spot : ∀ d, d ≠ c → f'.spot d = f.spot d
  core : ∀ d, d ≠ c → f'.os.core d = f.os.core d
  core' : ∀ d, d ≠ c → s'.core d = s.core d
  spin : Bystanders c f.spin f'.spin
  /-- Nobody writes a task state while another core has the lock. -/
  states : ∀ d < smp, d ≠ c → f.spin.holds d = true → s'.kernel.taskCount = s.kernel.taskCount ∧
    (∀ t, (f'.os.kernel.taskList t).state = (f.os.kernel.taskList t).state) ∧
    ∀ t, (s'.kernel.taskList t).state = (s.kernel.taskList t).state

theorem Place.beside {d : Nat} (h : Place f s d) (hb : Beside smp c f f' s s') (hd : d < smp)
    (hdc : d ≠ c) : Place f' s' d := by
  obtain ⟨hpc, hh⟩ := hb.spin d hdc
  cases h with
  | outside hspot hcore hfree hspin =>
    refine .outside ?_ ?_ ?_ ?_
    · rw [hb.spot d hdc, hspot]
    · rw [hb.core d hdc, hb.core' d hdc, hcore]
    · rw [hh, hfree]
    · rw [hpc, hspin]
  | locking curr hspot hcore hent hspin =>
    refine .locking curr ?_ ?_ ?_ ?_
    · rw [hb.spot d hdc, hspot]
    · rw [hb.core d hdc, hb.core' d hdc, hcore]
    · rw [hb.core' d hdc, hent]
    · rw [hpc, hh]
      exact hspin
  | inside curr p hspot hin hcore hent hheld hspin hprog =>
    obtain ⟨hcount, _, hst⟩ := hb.states d hd hdc hheld
    refine .inside curr p ?_ hin ?_ ?_ ?_ ?_ (hprog.congr hcount hst)
    · rw [hb.spot d hdc, hspot]
    · rw [hb.core d hdc, hb.core' d hdc, hcore]
    · rw [hb.core' d hdc, hent]
    · rw [hh, hheld]
    · rw [hpc]
      exact hspin
  | released curr n hspot hent hn hcore hfree hspin =>
    refine .released curr n ?_ ?_ hn ?_ ?_ ?_
    · rw [hb.spot d hdc, hspot]
    · rw [hb.core d hdc, hent]
    · rw [hb.core d hdc, hb.core' d hdc, hcore]
    · rw [hh, hfree]
    · rw [hpc]
      exact hspin

theorem Refines.moved (h : Refines lock smp f s) (hb : Beside smp c f f' s s')
    (hs : Settled smp s') (hspin : SpinExclusion.Inv lock f'.spin)
    (ha : Alike f'.os.kernel s'.kernel) (hp : Place f' s' c)
    (hheld : f'.spin.holds c = true → ∀ curr p, (s'.core c).pc = .entered curr → f'.spot c = some p →
      ∀ t, (f'.os.kernel.taskList t).state = stored curr (fun t => (s'.kernel.taskList t).state) p t)
    (hfree : (∀ d < smp, f'.spin.holds d = false) → ∀ t, (f'.os.kernel.taskList t).state =
      (s'.kernel.taskList t).state) : Refines lock smp f' s' := by
  refine ⟨hs, hspin, ha, ?_, ?_, hfree⟩
  · intro d hd
    by_cases hdc : d = c
    · rw [hdc]
      exact hp
    · exact (h.place d hd).beside hb hd hdc
  · intro d hd hh curr p hpc hspot t
    by_cases hdc : d = c
    · rw [hdc] at hh hpc hspot
      exact hheld hh curr p hpc hspot t
    · rw [(hb.spin d hdc).2] at hh
      rw [hb.core' d hdc] at hpc
      rw [hb.spot d hdc] at hspot
      obtain ⟨_, hst, hst'⟩ := hb.states d hd hdc hh
      rw [hst, funext hst']
      exact h.held d hd hh curr p hpc hspot t

/-- With no other holder, a core that has stored nothing yet sees the states of
the atomic machine. -/
theorem Refines.unstored (h : Refines lock smp f s) {curr : Nat} (hc : c < smp)
    (hpc : (s.core c).pc = .entered curr) (hspot : f.spot c = some .locking)
    (hothers : ∀ d < smp, d ≠ c → f.spin.holds d = false) (t : Nat) :
    (f.os.kernel.taskList t).state = (s.kernel.taskList t).state := by
  cases hh : f.spin.holds c with
  | true => exact h.held c hc hh curr .locking hpc hspot t
  | false =>
    refine h.free (fun d hd => ?_) t
    by_cases hdc : d = c
    · rw [hdc, hh]
    · exact hothers d hd hdc

/-- Only one core holds the lock. -/
theorem Refines.sole (h : Refines lock smp f s) (hh : f.spin.holds c = true) :
    ∀ d < smp, d ≠ c → f.spin.holds d = false := by
  intro d _ hdc
  rw [Bool.eq_false_iff]
  exact fun hd => hdc (h.spin.unique d c hd hh)

/-- A statement of the critical section. -/
theorem Refines.statement (h : Refines lock smp f s) {curr : Nat} {p : Spot} (hc : c < smp)
    (hh : f.spin.holds c = true) (hpc : (s.core c).pc = .entered curr)
    (hspin : f'.spin = f.spin) (hnone : (f.spin.core c).pc = none)
    (hspots : ∀ d, d ≠ c → f'.spot d = f.spot d) (hspot : f'.spot c = some p)
    (hp : p ≠ .locking ∧ ∀ n, p ≠ .unlocking n)
    (hcores : ∀ d, d ≠ c → f'.os.core d = f.os.core d)
    (hcore : f'.os.core c = storedCore (s.core c) p) (ha : Alike f'.os.kernel s.kernel)
    (hst : ∀ t, (f'.os.kernel.taskList t).state =
      stored curr (fun t => (s.kernel.taskList t).state) p t)
    (hprog : Progress s.kernel curr p) : Refines lock smp f' s := by
  have hsole := h.sole hh
  refine h.moved (c := c) ⟨hspots, hcores, fun _ _ => rfl, ?_, ?_⟩ h.settled (hspin ▸ h.spin) ha
    (.inside curr p hspot hp.1 hcore hpc (by rw [hspin, hh]) ?_ hprog) ?_ ?_
  · rw [hspin]
    exact fun _ _ => ⟨rfl, rfl⟩
  · intro d hd hdc hdh
    exact absurd ((hsole d hd hdc).symm.trans hdh) (by decide)
  · rw [hspin, hnone]
    cases p with
    | unlocking n => exact absurd rfl (hp.2 n)
    | _ => rfl
  · intro _ curr' p' hpc' hspot' t
    obtain rfl : curr = curr' := by simpa [hpc] using hpc'
    obtain rfl : p = p' := by simpa [hspot] using hspot'
    exact hst t
  · intro hall
    rw [hspin] at hall
    exact absurd ((hall c hc).symm.trans hh) (by decide)

end Relation

section Section

variable {lock : Word} {smp c curr : Nat} {f : ScheduleSteps.State} {s : Smp.State}

/-- The entry `task_list[curr->id]` is that of `curr`. -/
theorem Refines.id_eq (h : Refines lock smp f s) (hc : c < smp)
    (hpc : (s.core c).pc = .entered curr) : (f.os.kernel.taskList curr).id = curr := by
  rw [h.alike.id]
  exact h.settled.1.id curr (h.settled.1.entered_lt hc hpc).2

theorem Refines.enterLock (h : Refines lock smp f s) (e : ScheduleSteps.Event)
    (hcore : f.os.core c = s.core c) (hpc : (s.core c).pc = .entered curr)
    (hfree : f.spin.holds c = false) (hspin : (f.spin.core c).pc = none) :
    ∃ f', f.call lock c .spinLock e .locking = some f' ∧ Refines lock smp f' s := by
  obtain ⟨l, hcall, hi, hl, hholds, hby⟩ := call_spec h.spin .spinLock e.w1 e.w2 hspin (by simp)
  simp only [ScheduleSteps.State.call, hcall, Option.map_some]
  refine ⟨_, rfl, h.moved (c := c) ⟨fun d hd => by simp [hd], fun _ _ => rfl, fun _ _ => rfl, hby,
    fun _ _ _ _ => ⟨rfl, fun _ => rfl, fun _ => rfl⟩⟩ h.settled hi h.alike
    (.locking curr (by simp) hcore hpc (.inl ⟨0, hl⟩)) ?_ ?_⟩
  · intro hh
    simp only [setSpot_spin, withSpin_spin, hholds, hfree] at hh
    cases hh
  · intro hall
    simp only [setSpot_spin, withSpin_spin, hholds] at hall
    exact h.free hall

theorem Refines.lockInstr (h : Refines lock smp f s) (hc : c < smp) (e : ScheduleSteps.Event)
    (hspot : f.spot c = some .locking) (hcore : f.os.core c = s.core c)
    (hpc : (s.core c).pc = .entered curr) {i : Nat} (hspin : (f.spin.core c).pc = some (.spinLock, i)) :
    ∃ f', f.instr lock c e = some f' ∧ Refines lock smp f' s := by
  obtain ⟨l, hstep, hi, hl, hby⟩ := lock_spec h.spin e.ok hspin
  simp only [ScheduleSteps.State.instr, hstep, Option.map_some]
  have hothers : (∀ d < smp, d ≠ c → l.holds d = false) →
      ∀ t, (f.os.kernel.taskList t).state = (s.kernel.taskList t).state := by
    intro hall
    refine h.unstored hc hpc hspot (fun d hd hdc => ?_)
    rw [← (hby d hdc).2]
    exact hall d hd hdc
  refine ⟨_, rfl, h.moved (c := c) ⟨fun _ _ => rfl, fun _ _ => rfl, fun _ _ => rfl, hby,
    fun _ _ _ _ => ⟨rfl, fun _ => rfl, fun _ => rfl⟩⟩ h.settled hi h.alike
    (.locking curr hspot hcore hpc hl) ?_ ?_⟩
  · intro hh curr' p _ hp t
    obtain rfl : Spot.locking = p := by simpa [hspot] using hp
    refine hothers (fun d hd hdc => ?_) t
    rw [Bool.eq_false_iff]
    exact fun hdh => hdc (hi.unique d c hdh hh)
  · intro hall
    exact hothers (fun d hd _ => hall d hd)

theorem Refines.enterLoop (h : Refines lock smp f s) (hc : c < smp)
    (hspot : f.spot c = some .locking) (hcore : f.os.core c = s.core c)
    (hpc : (s.core c).pc = .entered curr) (hspin : (f.spin.core c).pc = none)
    (hh : f.spin.holds c = true) :
    Refines lock smp (f.setSpot c (some (.loop 1 (2 ^ 32 - 1)))) s := by
  have hlt := (h.settled.1.entered_lt hc hpc).2
  exact h.statement (p := .loop 1 (2 ^ 32 - 1)) hc hh hpc rfl hspin (fun d hd => by simp [hd])
    (by simp) (by simp) (fun _ _ => rfl) hcore h.alike (h.held c hc hh curr .locking hpc hspot)
    ⟨Nat.le_refl 1, by omega, rfl⟩

/-- An iteration of the loop. It does not run out of candidates, for there is a
task that waits. -/
theorem Refines.loop (h : Refines lock smp f s) (hc : c < smp) {i next : Nat}
    (hspot : f.spot c = some (.loop i next)) (hcore : f.os.core c = s.core c)
    (hpc : (s.core c).pc = .entered curr) (hspin : (f.spin.core c).pc = none)
    (hh : f.spin.holds c = true) (hprog : Progress s.kernel curr (.loop i next)) :
    Refines lock smp (f.loop c curr i next) s := by
  have hst := h.held c hc hh curr _ hpc hspot
  obtain ⟨hi, hle, hscan⟩ := hprog
  have hid := h.id_eq hc hpc
  have hcurr := h.settled.1.id curr (h.settled.1.entered_lt hc hpc).2
  obtain ⟨n, _, _, hfound⟩ := h.settled.1.scan_finds hc hpc
  rw [hcurr, hscan] at hfound
  have hlt : i < s.kernel.taskCount := by
    rcases Nat.lt_or_eq_of_le hle with hlt | heq
    · exact hlt
    · rw [heq, Nat.sub_self] at hfound
      cases congrArg Prod.snd hfound
  have hsub : s.kernel.taskCount - i = s.kernel.taskCount - (i + 1) + 1 := by omega
  rw [hsub, Kernel.scanFrom] at hscan
  have hnext := fun (p : Spot) (hp : p ≠ .locking ∧ ∀ n, p ≠ .unlocking n)
      (hcore' : storedCore (s.core c) p = s.core c) (hsame : ∀ st, stored curr st p = st)
      (hprog' : Progress s.kernel curr p) =>
    h.statement hc hh hpc (show (f.setSpot c (some p)).spin = f.spin from rfl) hspin
      (fun d hd => by simp [hd])
      (by simp) hp (fun _ _ => rfl) (by rw [hcore']; exact hcore) h.alike
      (fun t => by rw [hsame]; exact hst t) hprog'
  have hcand : (f.os.kernel.taskList ((curr + i) % 2 ^ 32 % s.kernel.taskCount)).state =
      (s.kernel.taskList ((curr + i) % 2 ^ 32 % s.kernel.taskCount)).state := hst _
  simp only [ScheduleSteps.State.loop, hid, h.alike.count, if_pos hlt, hcand]
  split
  · rename_i hr
    rw [if_pos hr] at hscan
    exact hnext _ (by simp) rfl (fun _ => rfl) ⟨by omega, hlt, hscan⟩
  · rename_i hr
    rw [if_neg hr] at hscan
    exact hnext _ (by simp) rfl (fun _ => rfl) hscan

theorem Refines.park (h : Refines lock smp f s) (hc : c < smp) {n : Nat}
    (hspot : f.spot c = some (.found n)) (hcore : f.os.core c = s.core c)
    (hpc : (s.core c).pc = .entered curr) (hspin : (f.spin.core c).pc = none)
    (hh : f.spin.holds c = true) (hprog : s.kernel.scan curr = (n, true)) :
    Refines lock smp ((f.withOs (f.os.withKernel (f.os.kernel.setState curr .waiting))).setSpot c
      (some (.parked n))) s := by
  have hst := h.held c hc hh curr _ hpc hspot
  refine h.statement (p := .parked n) hc hh hpc rfl hspin (fun d hd => by simp [hd]) (by simp)
    (by simp) (fun _ _ => rfl) hcore (h.alike.setState curr .waiting) (fun t => ?_) hprog
  simp only [setSpot_os, withOs_os, withKernel_kernel, Kernel.setState_state, stored,
    Function.update_apply, hst]

theorem Refines.mark (h : Refines lock smp f s) (hc : c < smp) {n : Nat}
    (hspot : f.spot c = some (.parked n)) (hcore : f.os.core c = s.core c)
    (hpc : (s.core c).pc = .entered curr) (hspin : (f.spin.core c).pc = none)
    (hh : f.spin.holds c = true) (hprog : s.kernel.scan curr = (n, true)) :
    Refines lock smp ((f.withOs (f.os.withKernel (f.os.kernel.setState n .running))).setSpot c
      (some (.marked n))) s := by
  have hst := h.held c hc hh curr _ hpc hspot
  refine h.statement (p := .marked n) hc hh hpc rfl hspin (fun d hd => by simp [hd]) (by simp)
    (by simp) (fun _ _ => rfl) hcore (h.alike.setState n .running) (fun t => ?_) hprog
  simp only [setSpot_os, withOs_os, withKernel_kernel, Kernel.setState_state, stored,
    Function.update_apply, hst]

theorem Refines.switch (h : Refines lock smp f s) (hc : c < smp) {n : Nat}
    (hspot : f.spot c = some (.marked n)) (hcore : f.os.core c = s.core c)
    (hpc : (s.core c).pc = .entered curr) (hspin : (f.spin.core c).pc = none)
    (hh : f.spin.holds c = true) (hprog : s.kernel.scan curr = (n, true)) :
    Refines lock smp ((f.withOs (f.os.setCore c { f.os.core c with current := some n })).setSpot c
      (some (.done n))) s := by
  have hst := h.held c hc hh curr _ hpc hspot
  exact h.statement (p := .done n) hc hh hpc rfl hspin (fun d hd => by simp [hd]) (by simp)
    (by simp) (fun d hd => by simp [hd]) (by simp [hcore, storedCore]) h.alike hst hprog

theorem Refines.enterUnlock (h : Refines lock smp f s) (hc : c < smp) (e : ScheduleSteps.Event)
    {n : Nat} (hspot : f.spot c = some (.done n))
    (hcore : f.os.core c = { s.core c with current := some n })
    (hpc : (s.core c).pc = .entered curr) (hspin : (f.spin.core c).pc = none)
    (hh : f.spin.holds c = true) (hprog : s.kernel.scan curr = (n, true)) :
    ∃ f', f.call lock c .spinUnlock e (.unlocking n) = some f' ∧ Refines lock smp f' s := by
  obtain ⟨l, hcall, hi, hl, hholds, hby⟩ := call_spec h.spin .spinUnlock e.w1 e.w2 hspin (fun _ => hh)
  have hst := h.held c hc hh curr _ hpc hspot
  have hheld : l.holds c = true := by rw [hholds, hh]
  simp only [ScheduleSteps.State.call, hcall, Option.map_some]
  refine ⟨_, rfl, h.moved (c := c) ⟨fun d hd => by simp [hd], fun _ _ => rfl, fun _ _ => rfl, hby,
    fun _ _ _ _ => ⟨rfl, fun _ => rfl, fun _ => rfl⟩⟩ h.settled hi h.alike
    (.inside curr (.unlocking n) (by simp) (by simp) hcore hpc hheld ⟨0, by decide, hl⟩ hprog)
    ?_ ?_⟩
  · intro _ curr' p hpc' hp t
    obtain rfl : curr = curr' := by simpa [hpc] using hpc'
    obtain rfl : Spot.unlocking n = p := by simpa using hp
    exact hst t
  · intro hall
    exact absurd ((hall c hc).symm.trans hheld) (by decide)

/-- Up to the `stlr` the atomic machine waits; with it, it does the whole section. -/
theorem Refines.unlockInstr (h : Refines lock smp f s) (hc : c < smp) (e : ScheduleSteps.Event)
    {n i : Nat} (hspot : f.spot c = some (.unlocking n))
    (hcore : f.os.core c = { s.core c with current := some n })
    (hpc : (s.core c).pc = .entered curr) (hi3 : i < 3)
    (hspin : (f.spin.core c).pc = some (.spinUnlock, i)) (hh : f.spin.holds c = true)
    (hprog : s.kernel.scan curr = (n, true)) :
    ∃ f', f.instr lock c e = some f' ∧ (Refines lock smp f' s ∨
      ∃ s', Smp.State.step smp s (.advance c) = some s' ∧ Refines lock smp f' s') := by
  obtain ⟨l, hstep, hi, _, hl, hholds, hby⟩ := unlock_spec h.spin e.ok hspin
  have hst := h.held c hc hh curr _ hpc hspot
  have hsole := h.sole hh
  simp only [ScheduleSteps.State.instr, hstep, Option.map_some]
  refine ⟨_, rfl, ?_⟩
  by_cases h2 : i = 2
  · right
    obtain ⟨s', hs', hset⟩ := h.settled.step (.advance c)
    have hlt := (h.settled.1.entered_lt hc hpc).2
    have hid := h.settled.1.id curr hlt
    have hbound := h.settled.1.bounded
    obtain ⟨m, hm, _, hfound⟩ := h.settled.1.scan_finds hc hpc
    obtain rfl : m = n := by simpa [hid, hprog] using hfound.symm
    have hn : m ≠ 2 ^ 32 - 1 := by simp only [maxTasks] at hbound; omega
    have hse : s' = (s.withKernel ((s.kernel.setState curr .waiting).setState m .running)).setCore c
        { s.core c with pc := .picked curr m, current := some m } := by
      have hmax : curr < maxTasks := by omega
      simp only [Smp.State.step, if_pos hc, Smp.State.advance, hpc, Smp.State.pick,
        Kernel.criticalSection, hid, hprog, if_pos hmax, Option.map_some, Option.some_or,
        if_neg hn, Option.some.injEq] at hs'
      exact hs'.symm
    have hfree : l.holds c = false := by rw [hholds, if_pos h2]
    refine ⟨s', hs', h.moved (c := c) ⟨fun _ _ => rfl, fun _ _ => rfl, fun d hd => by simp [hse, hd],
      hby, ?_⟩ hset hi ?_ (.released curr m hspot (by simp [hcore, hpc]) hn (by simp [hse, hcore])
      hfree (.inl (by rw [withSpin_spin, hl, h2]; rfl))) ?_ ?_⟩
    · intro d hd hdc hdh
      exact absurd ((hsole d hd hdc).symm.trans hdh) (by decide)
    · rw [hse]
      exact (((h.alike.symm.setState curr .waiting).setState m .running)).symm
    · intro hheld
      exact absurd (hfree.symm.trans hheld) (by decide)
    · intro _ t
      rw [withSpin_os, hst, hse]
      simp [stored, Function.update_apply]
  · left
    have hheld : l.holds c = true := by rw [hholds, if_neg h2, hh]
    have hl' : (l.core c).pc = some (.spinUnlock, i + 1) := by rw [hl, if_neg (by omega)]
    refine h.moved (c := c) ⟨fun _ _ => rfl, fun _ _ => rfl, fun _ _ => rfl, hby,
      fun _ _ _ _ => ⟨rfl, fun _ => rfl, fun _ => rfl⟩⟩ h.settled hi h.alike
      (.inside curr (.unlocking n) hspot (by simp) hcore hpc hheld ⟨i + 1, by omega, hl'⟩ hprog)
      (fun _ => ?_) (fun hall => ?_)
    · intro curr' p hpc' hp t
      obtain rfl : curr = curr' := by simpa [hpc] using hpc'
      obtain rfl : Spot.unlocking n = p := by simpa [hspot] using hp
      exact hst t
    · exact absurd ((hall c hc).symm.trans hheld) (by decide)

theorem Refines.returnInstr (h : Refines lock smp f s) (e : ScheduleSteps.Event) {n : Nat}
    (hspot : f.spot c = some (.unlocking n)) (hpc : (f.os.core c).pc = .entered curr)
    (hn : n ≠ 2 ^ 32 - 1) (hcore : s.core c = { f.os.core c with pc := .picked curr n })
    (hfree : f.spin.holds c = false) (hspin : (f.spin.core c).pc = some (.spinUnlock, 3)) :
    ∃ f', f.instr lock c e = some f' ∧ Refines lock smp f' s := by
  obtain ⟨l, hstep, hi, _, hl, hholds, hby⟩ := unlock_spec h.spin e.ok hspin
  have hfree' : l.holds c = false := by rw [hholds, if_neg (by decide), hfree]
  simp only [ScheduleSteps.State.instr, hstep, Option.map_some]
  refine ⟨_, rfl, h.moved (c := c) ⟨fun _ _ => rfl, fun _ _ => rfl, fun _ _ => rfl, hby,
    fun _ _ _ _ => ⟨rfl, fun _ => rfl, fun _ => rfl⟩⟩ h.settled hi h.alike
    (.released curr n hspot hpc hn hcore hfree' (.inr hl)) ?_ ?_⟩
  · intro hheld
    exact absurd (hfree'.symm.trans hheld) (by decide)
  · intro hall
    refine h.free (fun d hd => ?_)
    by_cases hdc : d = c
    · rw [hdc, hfree]
    · rw [← (hby d hdc).2]
      exact hall d hd

theorem Refines.leave (h : Refines lock smp f s) {n : Nat} (hn : n ≠ 2 ^ 32 - 1)
    (hcore : s.core c = { f.os.core c with pc := .picked curr n })
    (hfree : f.spin.holds c = false) (hspin : (f.spin.core c).pc = none) :
    Refines lock smp (f.leave c curr n) s := by
  have hcore' : (f.leave c curr n).os.core c = s.core c := by
    rw [ScheduleSteps.State.leave, setSpot_os, withOs_os, setCore_core, if_pos rfl, if_neg hn, hcore]
  refine h.moved (c := c) ⟨fun d hd => by simp [ScheduleSteps.State.leave, hd],
    fun d hd => by simp [ScheduleSteps.State.leave, hd], fun _ _ => rfl, fun _ _ => ⟨rfl, rfl⟩,
    fun _ _ _ _ => ⟨rfl, fun _ => rfl, fun _ => rfl⟩⟩ h.settled h.spin h.alike
    (.outside (by simp [ScheduleSteps.State.leave]) hcore' hfree hspin) ?_ ?_
  · intro hheld
    exact absurd (hfree.symm.trans hheld) (by decide)
  · exact h.free

/-- One step of a core in `_schedule`: the atomic machine waits or does it all. -/
theorem Refines.schedule (h : Refines lock smp f s) (hc : c < smp) (e : ScheduleSteps.Event)
    (hpc : (f.os.core c).pc = .entered curr) :
    ∃ f', f.schedule lock c curr e = some f' ∧ (Refines lock smp f' s ∨
      ∃ s', Smp.State.step smp s (.advance c) = some s' ∧ Refines lock smp f' s') := by
  unfold ScheduleSteps.State.schedule
  cases h.place c hc with
  | outside hspot hcore hfree hspin =>
    rw [hspot]
    obtain ⟨f', hf, hr⟩ := h.enterLock e hcore (hcore ▸ hpc) hfree hspin
    exact ⟨f', hf, .inl hr⟩
  | locking curr' hspot hcore hent hspin =>
    rw [hspot]
    rcases hspin with ⟨i, hi⟩ | ⟨hnone, hheld⟩
    · simp only [hi, reduceCtorEq, ↓reduceIte]
      obtain ⟨f', hf, hr⟩ := h.lockInstr hc e hspot hcore hent hi
      exact ⟨f', hf, .inl hr⟩
    · simp only [hnone, ↓reduceIte]
      exact ⟨_, rfl, .inl (h.enterLoop hc hspot hcore hent hnone hheld)⟩
  | inside curr' p hspot hin hcore hent hheld hspin hprog =>
    obtain rfl : curr' = curr := by
      cases p <;> simpa [hcore, storedCore, hent] using hpc
    have hid := h.id_eq hc hent
    have hlt := (h.settled.1.entered_lt hc hent).2
    have hbound := h.settled.1.bounded
    have hmax : curr' < maxTasks := by omega
    rw [hspot]
    cases p with
    | locking => exact absurd rfl hin
    | loop i next => exact ⟨_, rfl, .inl (h.loop hc hspot hcore hent hspin hheld hprog)⟩
    | found n =>
      simp only [hid, if_pos hmax]
      exact ⟨_, rfl, .inl (h.park hc hspot hcore hent hspin hheld hprog)⟩
    | parked n => exact ⟨_, rfl, .inl (h.mark hc hspot hcore hent hspin hheld hprog)⟩
    | marked n => exact ⟨_, rfl, .inl (h.switch hc hspot hcore hent hspin hheld hprog)⟩
    | done n =>
      obtain ⟨f', hf, hr⟩ := h.enterUnlock hc e hspot hcore hent hspin hheld hprog
      exact ⟨f', hf, .inl hr⟩
    | unlocking n =>
      obtain ⟨i, hi3, hi⟩ := hspin
      simp only [hi, reduceCtorEq, ↓reduceIte]
      exact h.unlockInstr hc e hspot hcore hent hi3 hi hheld hprog
  | released curr' n hspot hent hn hcore hfree hspin =>
    obtain rfl : curr' = curr := by simpa [hent] using hpc
    rw [hspot]
    rcases hspin with h3 | hnone
    · simp only [h3, reduceCtorEq, ↓reduceIte]
      obtain ⟨f', hf, hr⟩ := h.returnInstr e hspot hent hn hcore hfree h3
      exact ⟨f', hf, .inl hr⟩
    · simp only [hnone, ↓reduceIte]
      exact ⟨_, rfl, .inl (h.leave hn hcore hfree hnone)⟩

end Section

section Run

variable {lock : Word} {smp : Nat} {f : ScheduleSteps.State} {s : Smp.State}

def isIrq : Smp.Event → Bool
  | .irq _ _ => true
  | .advance _ => false

/-- A step of a core outside `_schedule`, or an interrupt there. -/
theorem Refines.outer (h : Refines lock smp f s) {c : Nat} (hspot : f.spot c = none)
    (hfree : f.spin.holds c = false) (hspin : (f.spin.core c).pc = none)
    {o' s' : Smp.State} (hs : Settled smp s') (hcount : s'.kernel.taskCount = s.kernel.taskCount)
    (hsame : SameStep c f.os o' s s') : Refines lock smp (f.withOs o') s' := by
  refine h.moved (c := c) ⟨fun _ _ => rfl, hsame.others, hsame.others', fun _ _ => ⟨rfl, rfl⟩,
    fun _ _ _ _ => ⟨hcount, hsame.states, hsame.states'⟩⟩ hs h.spin hsame.alike
    (.outside hspot hsame.core hfree hspin) ?_ ?_
  · intro hheld
    exact absurd (hfree.symm.trans hheld) (by decide)
  · intro hall t
    rw [withOs_os, hsame.states, hsame.states']
    exact h.free hall t

/-- An interrupt finds a core outside `_schedule`, or is not taken. -/
theorem Refines.irq (h : Refines lock smp f s) {c : Nat} (hc : c < smp) (frame : TrapFrame) :
    ∃ o', f.os.irq c frame = some o' ∧
      ∃ s', Smp.State.step smp s (.irq c frame) = some s' ∧ Refines lock smp (f.withOs o') s' := by
  obtain ⟨s', hs', hset⟩ := h.settled.step (.irq c frame)
  have hirq : s.irq c frame = some s' := by simpa only [Smp.State.step, if_pos hc] using hs'
  have hmasked : (∀ x : Smp.State, (x.core c).pc ≠ .user → x.irq c frame = some x) := by
    intro x hx
    simp [Smp.State.irq, Smp.State.canTrap, hx]
  have hstay : (f.os.core c).pc ≠ .user → (s.core c).pc ≠ .user → ∃ o', f.os.irq c frame = some o' ∧
      ∃ s', Smp.State.step smp s (.irq c frame) = some s' ∧ Refines lock smp (f.withOs o') s' := by
    intro hf hsu
    exact ⟨f.os, hmasked f.os hf, s, by simpa only [Smp.State.step, if_pos hc] using hmasked s hsu, h⟩
  cases h.place c hc with
  | outside hspot hcore hfree hspin =>
    obtain ⟨o', ho, hsame⟩ := irq_same hirq h.alike hcore
    exact ⟨o', ho, s', hs', h.outer hspot hfree hspin hset (step_taskCount hs') hsame⟩
  | locking curr hspot hcore hent hspin =>
    exact hstay (by simp [hcore, hent]) (by simp [hent])
  | inside curr p hspot hin hcore hent hheld hspin hprog =>
    refine hstay ?_ (by simp [hent])
    cases p <;> simp [hcore, storedCore, hent]
  | released curr n hspot hent hn hcore hfree hspin =>
    exact hstay (by simp [hent]) (by simp [hcore])

/-- Every step of the statement-level machine is a step of the atomic one or none. -/
theorem Refines.step (h : Refines lock smp f s) (e : ScheduleSteps.Event) :
    ∃ f', f.step lock smp e = some f' ∧ ((isIrq e.ev = false ∧ Refines lock smp f' s) ∨
      ∃ s', Smp.State.step smp s e.ev = some s' ∧ Refines lock smp f' s') := by
  unfold ScheduleSteps.State.step
  cases he : e.ev with
  | irq c frame =>
    simp only
    by_cases hc : c < smp
    · rw [if_pos hc]
      obtain ⟨o', ho, s', hs', hr⟩ := h.irq hc frame
      exact ⟨_, by rw [ho]; rfl, .inr ⟨s', hs', hr⟩⟩
    · rw [if_neg hc]
      exact ⟨f, rfl, .inr ⟨s, by simp [Smp.State.step, hc], h⟩⟩
  | advance c =>
    simp only
    by_cases hc : c < smp
    · rw [if_pos hc]
      split
      · rename_i curr hpc
        obtain ⟨f', hf, hr | hr⟩ := h.schedule hc e hpc
        · exact ⟨f', hf, .inl ⟨rfl, hr⟩⟩
        · exact ⟨f', hf, .inr hr⟩
      · rename_i hout
        cases h.place c hc with
        | outside hspot hcore hfree hspin =>
          obtain ⟨s', hs', hset⟩ := h.settled.step (.advance c)
          have hadv : s.advance smp c = some s' := by
            simpa only [Smp.State.step, if_pos hc] using hs'
          obtain ⟨o', ho, hsame⟩ := advance_same hadv h.alike hcore (h.settled.2 c hc)
            (fun t ht => hout t (by rw [hcore, ht]))
          exact ⟨_, by rw [ho]; rfl, .inr ⟨s', hs', h.outer hspot hfree hspin hset
            (step_taskCount hs') hsame⟩⟩
        | locking curr hspot hcore hent hspin => exact absurd (by rw [hcore, hent]) (hout curr)
        | inside curr p hspot hin hcore hent hheld hspin hprog =>
          refine absurd ?_ (hout curr)
          cases p <;> simp [hcore, storedCore, hent]
        | released curr n hspot hent hn hcore hfree hspin => exact absurd hent (hout curr)
    · rw [if_neg hc]
      exact ⟨f, rfl, .inl ⟨rfl, h⟩⟩

/-- The task a core has in the statement-level machine: that of the atomic one, or
a task that waits there. -/
theorem Refines.current (h : Refines lock smp f s) {c : Nat} (hc : c < smp) :
    ((f.os.core c).current = (s.core c).current) ∨
      (f.spin.holds c = true ∧ ∃ n, (f.os.core c).current = some n ∧
        ∀ d < smp, (s.core d).current ≠ some n) := by
  cases h.place c hc with
  | outside hspot hcore hfree hspin => exact .inl (by rw [hcore])
  | locking curr hspot hcore hent hspin => exact .inl (by rw [hcore])
  | released curr n hspot hent hn hcore hfree hspin => exact .inl (by rw [hcore])
  | inside curr p hspot hin hcore hent hheld hspin hprog =>
    have hnew : ∀ n, s.kernel.scan curr = (n, true) → ∀ d < smp, (s.core d).current ≠ some n := by
      intro n hscan
      obtain ⟨m, _, hw, hfound⟩ := h.settled.1.scan_finds hc hent
      rw [h.settled.1.id curr (h.settled.1.entered_lt hc hent).2, hscan] at hfound
      obtain rfl : n = m := congrArg Prod.fst hfound
      exact h.settled.1.not_current trivial hw (fun d hd _ hr => absurd (h.settled.2 d hd) hr)
    cases p with
    | done n => exact .inr ⟨hheld, n, by rw [hcore]; rfl, hnew n hprog⟩
    | unlocking n => exact .inr ⟨hheld, n, by rw [hcore]; rfl, hnew n hprog⟩
    | _ => exact .inl (by rw [hcore]; rfl)

/-- No two cores have the same task, at any statement. -/
theorem Refines.exclusive (h : Refines lock smp f s) :
    ∀ c < smp, ∀ d < smp, (f.os.core c).current = (f.os.core d).current → c = d := by
  have howned : ∀ c < smp, ∃ t, (s.core c).current = some t := fun c hc => by
    obtain ⟨t, _, ht⟩ := h.settled.1.owned c hc (h.settled.2 c hc).1
    exact ⟨t, ht⟩
  intro c hc d hd he
  rcases h.current hc with hcs | ⟨hch, n, hcn, hnew⟩
  · rcases h.current hd with hds | ⟨_, m, hdm, hnew⟩
    · obtain ⟨t, ht⟩ := howned c hc
      exact h.settled.1.exclusive c hc d hd t trivial ht (by rw [← hds, ← he, hcs, ht])
    · exact absurd (by rw [← hcs, he, hdm]) (hnew c hc)
  · rcases h.current hd with hds | ⟨hdh, _⟩
    · exact absurd (by rw [← hds, ← he, hcn]) (hnew d hd)
    · exact h.spin.unique c d hch hdh

theorem Refines.equal (h : Refines lock smp f s) (hall : ∀ c < smp, f.spot c = none) :
    f.os.kernel = s.kernel ∧ ∀ c < smp, f.os.core c = s.core c := by
  have hplace : ∀ c < smp, f.os.core c = s.core c ∧ f.spin.holds c = false := by
    intro c hc
    cases h.place c hc with
    | outside hspot hcore hfree hspin => exact ⟨hcore, hfree⟩
    | locking curr hspot => simp [hall c hc] at hspot
    | inside curr p hspot => simp [hall c hc] at hspot
    | released curr n hspot => simp [hall c hc] at hspot
  refine ⟨?_, fun c hc => (hplace c hc).1⟩
  have htask : f.os.kernel.taskList = s.kernel.taskList := by
    funext t
    have h1 := h.alike.cpuInfo t
    have h2 := h.free (fun c hc => (hplace c hc).2) t
    have h3 := h.alike.counter t
    have h4 := h.alike.id t
    cases hf : f.os.kernel.taskList t
    cases hs : s.kernel.taskList t
    simp_all
  have hcount := h.alike.count
  have hcpu := h.alike.cpuDec
  cases hf : f.os.kernel
  cases hs : s.kernel
  simp_all

theorem start_refines {s₀ : Smp.State} {spin : Spinlock.State Nat} (hs : Boot.Started smp s₀)
    (hspin : Spinlock.Initial spin) : Refines lock smp (start s₀ spin) s₀ where
  settled := Started.settled hs
  spin := SpinExclusion.initial_inv hspin
  alike := Alike.refl _
  place := fun c _ => .outside rfl rfl (hspin.2 c).2 (hspin.2 c).1
  held := fun c _ hh => absurd ((hspin.2 c).2.symm.trans hh) (by decide)
  free := fun _ _ => rfl

/-- The critical section of `_schedule` is atomic. For any number of cores with a task
each and any interleaving of the statements of `_schedule` and the instructions of
its spinlock with each other and with everything else, no step faults and the run is,
up to the order in which the cores release the lock, one of the machine in which
the section is a single step: the interrupts are the same, the other steps are
among those of the run, and whenever no core is inside, the task table and the
cores are the same. At no statement do two cores have the same task. -/
theorem schedule_section_atomic (lock : Word) (smp : Nat) (s₀ : Smp.State)
    (spin : Spinlock.State Nat) (hs : Boot.Started smp s₀) (hspin : Spinlock.Initial spin)
    (es : List ScheduleSteps.Event) :
    ∃ f ds s, run (ScheduleSteps.State.step lock smp) (start s₀ spin) es = some f ∧
      run (Smp.State.step smp) s₀ ds = some s ∧
      ds.Sublist (es.map ScheduleSteps.Event.ev) ∧
      ds.filter isIrq = (es.map ScheduleSteps.Event.ev).filter isIrq ∧
      (∀ c < smp, ∀ d < smp, (f.os.core c).current = (f.os.core d).current → c = d) ∧
      ((∀ c < smp, f.spot c = none) → f.os.kernel = s.kernel ∧ ∀ c < smp, f.os.core c = s.core c) := by
  obtain ⟨f, ds, s, hrun, harun, hr, hsub, hfil⟩ := run_stutters (R := Refines lock smp)
    (p := ScheduleSteps.Event.ev) (q := isIrq) (fun _ _ e h => h.step e) es _ s₀
    (start_refines hs hspin)
  exact ⟨f, ds, s, hrun, harun, hsub, hfil, hr.exclusive, hr.equal⟩

/-- The lock after `schedule_init`. -/
def freeLock : Spinlock.State Nat :=
  ⟨Spinlock.spinlockInit, fun _ => ⟨none, 0, 0, 0, false, false⟩, fun _ => false⟩

/-- Two cores at the end of their slices, and then a step of each in turn. -/
def contend (n : Nat) : List ScheduleSteps.Event :=
  ((sliceOn 0 waitFrame).dropLast ++ (sliceOn 1 waitFrame).dropLast ++
    (List.replicate n [Smp.Event.advance 0, .advance 1]).flatten).map (fun ev => ⟨ev, true, 7, 7⟩)

/-- Core 1 spins while core 0 is between two stores of its critical section, and then
goes through its own. -/
theorem schedule_section_atomic_main :
    Boot.Started 2 (Boot.started 2 threeTasks) ∧ Spinlock.Initial freeLock ∧
      (∃ g, run (ScheduleSteps.State.step 0x40090000 2)
          (start (Boot.started 2 threeTasks) freeLock) (contend 13) = some g ∧
        g.spin.holds 0 = true ∧ g.spot 0 = some (.marked 2) ∧ g.spot 1 = some .locking) ∧
      ∃ f ds s, run (ScheduleSteps.State.step 0x40090000 2)
          (start (Boot.started 2 threeTasks) freeLock) (contend 36) = some f ∧
        run (Smp.State.step 2) (Boot.started 2 threeTasks) ds = some s ∧
        ds.Sublist ((contend 36).map ScheduleSteps.Event.ev) ∧
        f.os.kernel = s.kernel ∧ (s.core 0).current = some 2 ∧ (s.core 1).pc = .picked 1 0 := by
  have hs : Boot.Started 2 (Boot.started 2 threeTasks) := Boot.started_started (by decide)
  have hspin : Spinlock.Initial freeLock := ⟨rfl, fun _ => ⟨rfl, rfl⟩⟩
  have hmid : (run (ScheduleSteps.State.step 0x40090000 2)
      (start (Boot.started 2 threeTasks) freeLock) (contend 13)).map
        (fun g => (g.spin.holds 0, g.spot 0, g.spot 1)) =
      some (true, some (.marked 2), some .locking) := by decide +kernel
  obtain ⟨g, hg, hgval⟩ := Option.map_eq_some_iff.mp hmid
  simp only [Prod.mk.injEq] at hgval
  obtain ⟨f, ds, s, hrun, harun, hsub, _, _, hequal⟩ := schedule_section_atomic 0x40090000 2
    (Boot.started 2 threeTasks) freeLock hs hspin (contend 36)
  have hend : (run (ScheduleSteps.State.step 0x40090000 2)
      (start (Boot.started 2 threeTasks) freeLock) (contend 36)).map
        (fun f => (f.spot 0, f.spot 1, (f.os.core 0).current, (f.os.core 1).pc)) =
      some (none, none, some 2, .picked 1 0) := by decide +kernel
  simp only [hrun, Option.map_some, Option.some.injEq, Prod.mk.injEq] at hend
  obtain ⟨hspot0, hspot1, hcur, hpc⟩ := hend
  have hout : ∀ c < 2, f.spot c = none := by
    intro c hc
    obtain rfl | rfl : c = 0 ∨ c = 1 := by omega
    · exact hspot0
    · exact hspot1
  obtain ⟨hkernel, hcore⟩ := hequal hout
  exact ⟨hs, hspin, ⟨g, hg, hgval⟩, f, ds, s, hrun, harun, hsub, hkernel,
    hcore 0 (by decide) ▸ hcur, hcore 1 (by decide) ▸ hpc⟩

end Run

end Dmos.Proofs.ScheduleRefines
