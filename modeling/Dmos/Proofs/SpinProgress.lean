import Dmos.Lib.Progress
import Dmos.Proofs.SpinExclusion
import Dmos.Proofs.ScheduleRefines

namespace Dmos.Proofs.SpinProgress
open Lib

section Taking

open Spinlock SpinExclusion

variable {ι : Type} [DecidableEq ι] {lock : Word} {s s' : State ι} {c : ι}

/-- How many instructions a core in `spin_lock` is before a successful `stlxr`,
when nobody else stores to the lock. A monitor that another core's store closed
costs one more round. -/
def distance (k : Core) : Nat :=
  match k.pc with
  | some (.spinLock, 0) => 3
  | some (.spinLock, 1) => 2
  | some (.spinLock, 2) => if k.w2 ≠ 0 then 3 else if k.monitor then 1 else 5
  | some (.spinLock, 3) => if k.monitor then 0 else 4
  | some (.spinLock, 4) => 3
  | _ => 0

/-- A free lock for which core `c` spins. -/
structure Waiting (lock : Word) (c : ι) (s : State ι) : Prop where
  inv : Inv lock s
  free : ∀ d, s.holds d = false
  spins : ∃ i, (s.core c).pc = some (.spinLock, i)

omit [DecidableEq ι] in
theorem Waiting.word (h : Waiting lock c s) : s.word = 0 := by
  rcases h.inv.word with ⟨_, d, hd⟩ | ⟨h0, _⟩
  · exact absurd ((h.free d).symm.trans hd) (by decide)
  · exact h0

omit [DecidableEq ι] in
/-- The core has not taken the lock, so it is before the branch after its `stlxr`. -/
theorem Waiting.place (h : Waiting lock c s) :
    ∃ i ≤ 4, (s.core c).pc = some (.spinLock, i) ∧ Taking lock 0 (s.core c) false i := by
  obtain ⟨i, hi⟩ := h.spins
  have hlocal := h.inv.places c
  rw [h.word, h.free c, Local, hi] at hlocal
  rcases i with _ | _ | _ | _ | _ | _ | _ | _
  · exact ⟨0, by decide, hi, hlocal⟩
  · exact ⟨1, by decide, hi, hlocal⟩
  · exact ⟨2, by decide, hi, hlocal⟩
  · exact ⟨3, by decide, hi, hlocal⟩
  · exact ⟨4, by decide, hi, hlocal⟩
  · exact Bool.noConfusion hlocal.2
  · exact Bool.noConfusion hlocal.2
  · exact hlocal.elim

/-- An instruction of the waiting core lowers the distance, unless it takes the lock. -/
theorem distance_exec {k : Core} {i : Nat} (hi : i ≤ 4) (hpc : k.pc = some (.spinLock, i))
    (ht : Taking lock 0 k false i) (hn : ¬ (i = 3 ∧ k.monitor = true)) :
    ∃ k', exec lock 0 true k = some (k', .quiet) ∧ (∃ j, k'.pc = some (.spinLock, j)) ∧
      distance k' + 1 ≤ distance k := by
  obtain ⟨pc, x0, w1, w2, monitor, acquired⟩ := k
  cases hpc
  match i, ht with
  | 0, _ => exact ⟨_, rfl, ⟨1, rfl⟩, Nat.le_refl _⟩
  | 1, h1 => exact ⟨_, if_pos h1.1, ⟨2, rfl⟩, Nat.le_refl _⟩
  | 2, h2 =>
    by_cases h0 : w2 = 0
    · subst h0
      refine ⟨_, rfl, ⟨3, rfl⟩, ?_⟩
      cases monitor <;> exact Nat.le_refl _
    · refine ⟨⟨some (.spinLock, 1), x0, w1, w2, monitor, acquired⟩, ?_, ⟨1, rfl⟩, ?_⟩
      · exact congrArg (fun k => some (k, Effect.quiet)) (if_pos h0)
      · exact Nat.le_of_eq (if_pos h0).symm
  | 3, h3 =>
    have hm : monitor = false := by simpa using hn
    subst hm
    exact ⟨_, if_neg (not_not_intro h3.1), ⟨4, rfl⟩, Nat.le_refl _⟩
  | 4, h4 =>
    have h0 : w2 ≠ 0 := fun h0 => Bool.noConfusion (h4.2.2.2 (h4.2.1.mp h0))
    refine ⟨⟨some (.spinLock, 1), x0, w1, w2, monitor, acquired⟩, ?_, ⟨1, rfl⟩, Nat.le_refl _⟩
    exact congrArg (fun k => some (k, Effect.quiet)) (if_pos h0)

omit [DecidableEq ι] in
/-- With a free lock every instruction takes it or stores nothing. -/
theorem Waiting.effect (h : Waiting lock c s) {d : ι} {ok : Bool} {k : Core} {f : Effect}
    (hexec : exec lock s.word ok (s.core d) = some (k, f))
    (hn : ¬ ∃ a, Acquires s (.step d ok) a) : f = .quiet := by
  have heffect := exec_effect hexec
  obtain ⟨k', f', hexec', _, hlawful⟩ := executes ok (exec_pc hexec) (h.inv.places d)
  cases hexec.symm.trans hexec'
  cases f with
  | quiet => rfl
  | exclusive v =>
    obtain ⟨rfl, hm, rs, rt, hi⟩ := heffect
    exact absurd ⟨d, rs, rt, rfl, hi, hm⟩ hn
  | plain v => exact absurd ((h.free d).symm.trans hlawful.2) (by decide)

/-- A store-exclusive of the waiting core fails only when its monitor was closed. -/
def Willing (c : ι) (e : Event ι) : Prop := ∀ ok, e = .step c ok → ok = true

def isStep (c : ι) : Event ι → Bool
  | .call _ _ _ _ => false
  | .step d _ => d = c

/-- One event: the lock is taken, or the core is closer to it, or as close as it was. -/
theorem Waiting.step (h : Waiting lock c s) {e : Event ι} (hw : Willing c e)
    (hs : Spinlock.step lock s e = some s') (hn : ¬ ∃ a, Acquires s e a) :
    Waiting lock c s' ∧
      distance (s'.core c) + (if isStep c e = true then 1 else 0) ≤ distance (s.core c) := by
  obtain ⟨i, hi4, hpc, ht⟩ := h.place
  have hinv := step_inv h.inv hs
  cases e with
  | call d r w1 w2 =>
    obtain ⟨hnone, _, rfl⟩ := step_call hs
    have hdc : c ≠ d := by
      rintro rfl
      rw [hpc] at hnone
      cases hnone
    refine ⟨⟨hinv, h.free, i, by simp [hdc, hpc]⟩, ?_⟩
    simp [isStep, hdc]
  | step d ok =>
    obtain ⟨k, f, hexec, rfl⟩ := step_step hs
    obtain rfl := h.effect hexec hn
    have hfree : ∀ a, Function.update s.holds d (Effect.holds .quiet (s.holds d)) a = false := by
      intro a
      rw [Effect.holds, Function.update_eq_self]
      exact h.free a
    by_cases hdc : d = c
    · subst hdc
      obtain rfl := hw ok rfl
      have hn3 : ¬ (i = 3 ∧ (s.core d).monitor = true) := by
        rintro ⟨rfl, hm⟩
        refine hn ⟨d, .w2, .w1, rfl, ?_, hm⟩
        rw [Core.instr, hpc]
        rfl
      rw [h.word] at hexec
      obtain ⟨k', hexec', hspins, hlt⟩ := distance_exec hi4 hpc ht hn3
      cases hexec.symm.trans hexec'
      exact ⟨⟨hinv, hfree, by simpa using hspins⟩, by simpa [isStep] using hlt⟩
    · have hcd : c ≠ d := fun he => hdc he.symm
      refine ⟨⟨hinv, hfree, i, by simp [hcd, hpc]⟩, ?_⟩
      simp [isStep, hdc, hcd, Effect.monitor]

/-- A free lock does not stay free while a core wants it. From any reachable state
in which nobody holds the lock and core `c` is in `spin_lock`, in every
interleaving in which `c` executes six instructions some core takes the lock, as
long as the exclusive stores of `c` that nothing stands against succeed. -/
theorem free_lock_taken {ι : Type} [DecidableEq ι] (lock : Word) (s₀ s s' : State ι)
    (hinit : Initial s₀) (before : List (Event ι)) (hbefore : run (Spinlock.step lock) s₀ before = some s)
    (c : ι) (i : Nat) (hc : (s.core c).pc = some (.spinLock, i)) (hfree : s.word = 0)
    (es : List (Event ι)) (hrun : run (Spinlock.step lock) s es = some s')
    (hw : ∀ e ∈ es, Willing c e) (hsix : 6 ≤ (es.filter (isStep c)).length) :
    ∃ pre e post t d, es = pre ++ e :: post ∧ run (Spinlock.step lock) s pre = some t ∧
      Acquires t e d := by
  have hinv := run_inv (initial_inv hinit) hbefore
  have hnone : ∀ d, s.holds d = false := by
    rcases hinv.word with ⟨h1, _⟩ | ⟨_, hnone⟩
    · rw [hfree] at h1
      exact absurd h1 (by decide)
    · exact hnone
  have hwait : Waiting lock c s := ⟨hinv, hnone, i, hc⟩
  have hrank : distance (s.core c) ≤ 5 := by
    unfold distance
    split <;> (try split) <;> (try split) <;> decide
  obtain ⟨pre, e, post, t, heq, ht, d, hd⟩ := run_reaches (I := Waiting lock c)
    (G := fun s e => ∃ d, Acquires s e d) (E := Willing c)
    (fun _ _ _ h hw hs hn => h.step hw hs hn) es s s' hwait hw hrun
    (Nat.lt_of_le_of_lt hrank hsix)
  exact ⟨pre, e, post, t, d, heq, ht, hd⟩

/-- A core that calls `spin_lock` with nobody around. -/
def alone : List (Event Bool) :=
  [.call true .spinLock 7 7]

def sixSteps : List (Event Bool) := List.replicate 6 (.step true true)

theorem free_lock_taken_alone : ∃ s s', run (Spinlock.step 0x1000) twoCores alone = some s ∧
    run (Spinlock.step 0x1000) s sixSteps = some s' ∧
    ∃ pre e post t d, sixSteps = pre ++ e :: post ∧ run (Spinlock.step 0x1000) s pre = some t ∧
      Acquires t e d := by
  obtain ⟨s, s', hs, hpc, hword, hs'⟩ : ∃ s s', run (Spinlock.step 0x1000) twoCores alone = some s ∧
      (s.core true).pc = some (.spinLock, 0) ∧ s.word = 0 ∧
      run (Spinlock.step 0x1000) s sixSteps = some s' := ⟨_, _, rfl, rfl, rfl, rfl⟩
  refine ⟨s, s', hs, hs', ?_⟩
  refine free_lock_taken 0x1000 twoCores s s' ⟨rfl, fun _ => ⟨rfl, rfl⟩⟩ alone hs true 0 hpc hword
    sixSteps hs' ?_ (by decide)
  intro e he ok heq
  rw [List.eq_of_mem_replicate he] at heq
  exact (Event.step.inj heq).2.symm

end Taking

section Holding

open ScheduleSteps ScheduleRefines

variable {lock : Word} {smp c : Nat} {f f' : ScheduleSteps.State} {s : Smp.State}

/-- How many own steps a core in the critical section is before its `stlr`. -/
def remaining (count : Nat) (pc : Option (Spinlock.Routine × Nat)) : Spot → Nat
  | .locking => 0
  | .loop i _ => count - i + 6
  | .found _ => 6
  | .parked _ => 5
  | .marked _ => 4
  | .done _ => 3
  | .unlocking _ =>
    match pc with
    | some (_, i) => 2 - i
    | none => 0

/-- The event is a step of core `c`. -/
def isOwn (c : Nat) (e : ScheduleSteps.Event) : Bool :=
  match e.ev with
  | .advance d => d = c
  | .irq _ _ => false

/-- The next instruction of the core is the `stlr` of its `spin_unlock`. -/
def GivesBack (c : Nat) (f : ScheduleSteps.State) (e : ScheduleSteps.Event) : Prop :=
  e.ev = .advance c ∧ (∃ n, f.spot c = some (.unlocking n)) ∧
    (f.spin.core c).pc = some (.spinUnlock, 2)

/-- A step of another core leaves the core where it is. -/
def Untouched (c : Nat) (f f' : ScheduleSteps.State) : Prop :=
  f'.spot c = f.spot c ∧ (f'.spin.core c).pc = (f.spin.core c).pc ∧
    f'.spin.holds c = f.spin.holds c

theorem untouched_call {d : Nat} {r : Spinlock.Routine} {e : ScheduleSteps.Event} {p : Spot}
    (hdc : d ≠ c) (h : f.call lock d r e p = some f') : Untouched c f f' := by
  obtain ⟨l, hl, rfl⟩ := Option.map_eq_some_iff.mp h
  obtain ⟨_, _, rfl⟩ := SpinExclusion.step_call hl
  exact ⟨by simp [hdc.symm], by simp [hdc.symm], rfl⟩

theorem untouched_instr {d : Nat} {e : ScheduleSteps.Event} (hdc : d ≠ c)
    (h : f.instr lock d e = some f') : Untouched c f f' := by
  obtain ⟨l, hl, rfl⟩ := Option.map_eq_some_iff.mp h
  obtain ⟨k, g, _, rfl⟩ := SpinExclusion.step_step hl
  exact ⟨rfl, by simp [hdc.symm], by simp [hdc.symm]⟩

theorem untouched_schedule {d curr : Nat} {e : ScheduleSteps.Event} (hdc : d ≠ c)
    (h : f.schedule lock d curr e = some f') : Untouched c f f' := by
  unfold ScheduleSteps.State.schedule at h
  split at h
  · exact untouched_call hdc h
  · split at h
    · cases h
      exact ⟨by simp [hdc.symm], rfl, rfl⟩
    · exact untouched_instr hdc h
  · cases h
    unfold ScheduleSteps.State.loop
    dsimp only
    split
    · split <;> exact ⟨by simp [hdc.symm], rfl, rfl⟩
    · exact ⟨by simp [hdc.symm], rfl, rfl⟩
  · dsimp only at h
    split at h
    · cases h
      exact ⟨by simp [hdc.symm], rfl, rfl⟩
    · cases h
  · cases h
    exact ⟨by simp [hdc.symm], rfl, rfl⟩
  · cases h
    exact ⟨by simp [hdc.symm], rfl, rfl⟩
  · exact untouched_call hdc h
  · split at h
    · cases h
      exact ⟨by simp [ScheduleSteps.State.leave, hdc.symm], rfl, rfl⟩
    · exact untouched_instr hdc h

theorem untouched_step {e : ScheduleSteps.Event} (h : f.step lock smp e = some f')
    (hne : ∀ curr, e.ev = .advance c → (f.os.core c).pc ≠ .entered curr) : Untouched c f f' := by
  unfold ScheduleSteps.State.step at h
  cases he : e.ev with
  | irq d frame =>
    simp only [he] at h
    split at h
    · obtain ⟨o, _, rfl⟩ := Option.map_eq_some_iff.mp h
      exact ⟨rfl, rfl, rfl⟩
    · cases h
      exact ⟨rfl, rfl, rfl⟩
  | advance d =>
    simp only [he] at h
    split at h
    · split at h
      · rename_i curr hpc
        refine untouched_schedule ?_ h
        rintro rfl
        exact hne curr he hpc
      · obtain ⟨o, _, rfl⟩ := Option.map_eq_some_iff.mp h
        exact ⟨rfl, rfl, rfl⟩
    · cases h
      exact ⟨rfl, rfl, rfl⟩

/-- A reachable state in which core `c` is in the critical section. -/
structure Inside (lock : Word) (smp count c : Nat) (f : ScheduleSteps.State) : Prop where
  refines : ∃ s, Refines lock smp f s
  lt : c < smp
  count : f.os.kernel.taskCount = count
  spot : ∃ p, f.spot c = some p ∧ p ≠ .locking
  held : f.spin.holds c = true

def rank (count c : Nat) (f : ScheduleSteps.State) : Nat :=
  ((f.spot c).map (remaining count (f.spin.core c).pc)).getD 0

theorem loop_cases (f : ScheduleSteps.State) (c curr i next : Nat) :
    ∃ q, f.loop c curr i next = f.setSpot c (some q) ∧
      (i < f.os.kernel.taskCount ∧ ((∃ n, q = .loop (i + 1) n) ∨ ∃ n, q = .found n) ∨
        ∃ n, q = .done n) := by
  unfold ScheduleSteps.State.loop
  dsimp only
  split
  · rename_i hi
    split
    · exact ⟨_, rfl, .inl ⟨hi, .inl ⟨_, rfl⟩⟩⟩
    · exact ⟨_, rfl, .inl ⟨hi, .inr ⟨_, rfl⟩⟩⟩
  · exact ⟨_, rfl, .inr ⟨_, rfl⟩⟩

/-- A statement of the section. -/
theorem Inside.statement {count : Nat} {p q : Spot} (h : Inside lock smp count c f)
    (hp : f.spot c = some p) (hq : f'.spot c = some q) (hne : q ≠ .locking)
    (hholds : f'.spin.holds c = f.spin.holds c)
    (hlt : remaining count (f'.spin.core c).pc q + 1 ≤ remaining count (f.spin.core c).pc p) :
    (∃ p, f'.spot c = some p ∧ p ≠ .locking) ∧ f'.spin.holds c = true ∧
      rank count c f' + 1 ≤ rank count c f := by
  refine ⟨⟨q, hq, hne⟩, hholds.trans h.held, ?_⟩
  simpa only [rank, hp, hq, Option.map_some, Option.getD_some] using hlt

/-- What the core's next own step leads to. -/
theorem Inside.own {count : Nat} (h : Inside lock smp count c f) {e : ScheduleSteps.Event}
    (he : e.ev = .advance c) (hs : f.step lock smp e = some f') (hn : ¬ GivesBack c f e) :
    (∃ p, f'.spot c = some p ∧ p ≠ .locking) ∧ f'.spin.holds c = true ∧
      rank count c f' + 1 ≤ rank count c f := by
  obtain ⟨s, hr⟩ := h.refines
  have hc := h.lt
  have hheld := h.held
  cases hr.place c hc with
  | outside hspot hcore hfree => simp [hheld] at hfree
  | locking curr hspot =>
    obtain ⟨p, hp, hne⟩ := h.spot
    rw [hspot] at hp
    exact absurd (Option.some.inj hp).symm hne
  | released curr n hspot hent hn' hcore hfree => simp [hheld] at hfree
  | inside curr p hspot hin hcore hent _ hspin hprog =>
    have hpc : (f.os.core c).pc = .entered curr := by
      cases p <;> simp [hcore, storedCore, hent]
    simp only [ScheduleSteps.State.step, he, if_pos hc, hpc] at hs
    cases p with
    | locking => exact absurd rfl hin
    | loop i next =>
      simp only [ScheduleSteps.State.schedule, hspot] at hs
      obtain ⟨q, hq, hcases⟩ := loop_cases f c curr i next
      rw [hq, Option.some.injEq] at hs
      subst hs
      have hcount := h.count
      rcases hcases with ⟨hi, ⟨n, rfl⟩ | ⟨n, rfl⟩⟩ | ⟨n, rfl⟩
      · exact h.statement (q := .loop (i + 1) n) hspot (by simp) (by simp) rfl
          (by simp only [remaining]; omega)
      · exact h.statement (q := .found n) hspot (by simp) (by simp) rfl
          (by simp only [remaining]; omega)
      · exact h.statement (q := .done n) hspot (by simp) (by simp) rfl
          (by simp only [remaining]; omega)
    | found n =>
      simp only [ScheduleSteps.State.schedule, hspot] at hs
      split at hs
      · cases hs
        exact h.statement (q := .parked n) hspot (by simp) (by simp) rfl (Nat.le_refl _)
      · cases hs
    | parked n =>
      simp only [ScheduleSteps.State.schedule, hspot] at hs
      cases hs
      exact h.statement (q := .marked n) hspot (by simp) (by simp) rfl (Nat.le_refl _)
    | marked n =>
      simp only [ScheduleSteps.State.schedule, hspot] at hs
      cases hs
      exact h.statement (q := .done n) hspot (by simp) (by simp) rfl (Nat.le_refl _)
    | done n =>
      simp only [ScheduleSteps.State.schedule, hspot] at hs
      obtain ⟨l, hl, rfl⟩ := Option.map_eq_some_iff.mp hs
      obtain ⟨_, _, rfl⟩ := SpinExclusion.step_call hl
      exact h.statement (q := .unlocking n) hspot (by simp) (by simp) rfl (by simp [remaining])
    | unlocking n =>
      obtain ⟨i, hi3, hi⟩ := hspin
      simp only [ScheduleSteps.State.schedule, hspot, hi, reduceCtorEq, ↓reduceIte] at hs
      obtain ⟨l, hl, _, _, hlpc, hholds, _⟩ := unlock_spec hr.spin e.ok hi
      have h2 : i ≠ 2 := by
        rintro rfl
        exact hn ⟨he, ⟨n, hspot⟩, hi⟩
      simp only [ScheduleSteps.State.instr, hl, Option.map_some, Option.some.injEq] at hs
      subst hs
      rw [if_neg (by omega)] at hlpc
      rw [if_neg h2] at hholds
      refine h.statement (q := .unlocking n) hspot hspot (by simp) hholds ?_
      simp only [remaining, withSpin_spin, hlpc, hi]
      omega

/-- A step keeps the core in the section, until it gives the lock back. -/
theorem Inside.step {count : Nat} (h : Inside lock smp count c f) {e : ScheduleSteps.Event}
    (hs : f.step lock smp e = some f') (hn : ¬ GivesBack c f e) :
    Inside lock smp count c f' ∧
      rank count c f' + (if isOwn c e = true then 1 else 0) ≤ rank count c f := by
  obtain ⟨s, hr⟩ := h.refines
  obtain ⟨g, hg, hcase⟩ := hr.step e
  obtain rfl : g = f' := Option.some.inj (hg.symm.trans hs)
  have hcount : g.os.kernel.taskCount = count := by
    rw [← h.count, hr.alike.count]
    rcases hcase with ⟨_, hr'⟩ | ⟨s', hs', hr'⟩
    · exact hr'.alike.count
    · rw [hr'.alike.count]
      exact Steps.step_taskCount hs'
  have hr' : ∃ s, Refines lock smp g s := by
    rcases hcase with ⟨_, hr'⟩ | ⟨s', _, hr'⟩
    · exact ⟨s, hr'⟩
    · exact ⟨s', hr'⟩
  cases ho : isOwn c e with
  | true =>
    have he : e.ev = .advance c := by
      unfold isOwn at ho
      split at ho
      · rename_i d hd
        rw [hd, of_decide_eq_true ho]
      · cases ho
    obtain ⟨hspot, hheld, hlt⟩ := h.own he hs hn
    exact ⟨⟨hr', h.lt, hcount, hspot, hheld⟩, by simpa using hlt⟩
  | false =>
    have hne : ∀ curr, e.ev = .advance c → (f.os.core c).pc ≠ .entered curr := by
      intro curr he
      simp [isOwn, he] at ho
    obtain ⟨h1, h2, h3⟩ := untouched_step hs hne
    refine ⟨⟨hr', h.lt, hcount, by rw [h1]; exact h.spot, h3.trans h.held⟩, ?_⟩
    simp [rank, h1, h2]

/-- Every run from the start stays related to a run of the atomic machine. -/
theorem run_refines_count {s₀ : Smp.State} {spin : Spinlock.State Nat} (hs : Boot.Started smp s₀)
    (hspin : Spinlock.Initial spin) (es : List ScheduleSteps.Event) :
    ∃ f s, run (ScheduleSteps.State.step lock smp) (start s₀ spin) es = some f ∧
      Refines lock smp f s ∧ f.os.kernel.taskCount = s₀.kernel.taskCount := by
  obtain ⟨f, ds, s, hrun, harun, hr, _⟩ := run_stutters (R := Refines lock smp)
    (p := ScheduleSteps.Event.ev) (q := isIrq) (fun _ _ e h => h.step e) es _ s₀
    (start_refines hs hspin)
  refine ⟨f, s, hrun, hr, hr.alike.count.trans ?_⟩
  exact run_always (I := fun t => t.kernel.taskCount = s₀.kernel.taskCount)
    (fun _ _ _ ht he => (Steps.step_taskCount he).trans ht) ds s₀ s rfl harun

/-- The section is left in bounded time. From any reachable state in which a core
is in the critical section of `_schedule`, and whatever the other cores do, it
releases the lock within `task_count + 6` of its own steps. -/
theorem section_bounded (lock : Word) (smp : Nat) (s₀ : Smp.State) (spin : Spinlock.State Nat)
    (hs : Boot.Started smp s₀) (hspin : Spinlock.Initial spin)
    (before : List ScheduleSteps.Event) (f f' : ScheduleSteps.State)
    (hbefore : run (ScheduleSteps.State.step lock smp) (start s₀ spin) before = some f)
    (c : Nat) (hc : c < smp) (i next : Nat) (hin : f.spot c = some (.loop i next))
    (es : List ScheduleSteps.Event)
    (hrun : run (ScheduleSteps.State.step lock smp) f es = some f')
    (hmany : s₀.kernel.taskCount + 6 ≤ (es.filter (isOwn c)).length) :
    ∃ pre e post t, es = pre ++ e :: post ∧
      run (ScheduleSteps.State.step lock smp) f pre = some t ∧ GivesBack c t e := by
  obtain ⟨g, s, hg, hr, hcount⟩ := run_refines_count hs hspin before
  obtain rfl : g = f := Option.some.inj (hg.symm.trans hbefore)
  obtain ⟨hheld, hi, hle⟩ : g.spin.holds c = true ∧ 1 ≤ i ∧ i ≤ g.os.kernel.taskCount := by
    cases hr.place c hc with
    | outside hspot => simp [hin] at hspot
    | locking curr hspot => simp [hin] at hspot
    | released curr n hspot => simp [hin] at hspot
    | inside curr p hspot _ _ _ hheld _ hprog =>
      obtain rfl : Spot.loop i next = p := Option.some.inj (hin.symm.trans hspot)
      exact ⟨hheld, hprog.1, by rw [hr.alike.count]; exact hprog.2.1⟩
  have hinside : Inside lock smp s₀.kernel.taskCount c g :=
    ⟨⟨s, hr⟩, hc, hcount, ⟨_, hin, by simp⟩, hheld⟩
  have hrank : rank s₀.kernel.taskCount c g < (es.filter (isOwn c)).length := by
    simp only [rank, hin, Option.map_some, Option.getD_some, remaining]
    omega
  exact run_reaches (E := fun _ => True) (fun _ _ _ h _ hs hn => h.step hs hn) es g f' hinside
    (fun _ _ => trivial) hrun hrank

/-- Two tasks on one core, the first at its last tick. -/
def lastTick : Smp.State :=
  (Boot.started 1 Exclusion.mainTasks).withKernel
    ((Boot.started 1 Exclusion.mainTasks).kernel.setCounter 0 1)

theorem lastTick_started : Boot.Started 1 lastTick := by
  have h : Boot.Started 1 (Boot.started 1 Exclusion.mainTasks) := Boot.started_started (by decide)
  refine ⟨h.toCreated.congr rfl (by simp [lastTick]) (by simp [lastTick]), h.fits, h.idle,
    h.current, ?_⟩
  intro t ht
  simpa [lastTick] using h.running t ht

/-- The interrupt, the tick, and the eight steps of `spin_lock`. -/
def intoSection : List ScheduleSteps.Event :=
  ⟨.irq 0 (TrapFrame.zero.setSpsr spsrEl1El1h), true, 7, 7⟩ ::
    List.replicate 11 ⟨.advance 0, true, 7, 7⟩

theorem section_bounded_tick : ∃ f f',
    run (ScheduleSteps.State.step 0x1000 1) (start lastTick freeLock) intoSection = some f ∧
    run (ScheduleSteps.State.step 0x1000 1) f (List.replicate 8 ⟨.advance 0, true, 7, 7⟩) =
      some f' ∧
    ∃ pre e post t, List.replicate 8 ⟨.advance 0, true, 7, 7⟩ = pre ++ e :: post ∧
      run (ScheduleSteps.State.step 0x1000 1) f pre = some t ∧ GivesBack 0 t e := by
  obtain ⟨f, f', hf, hspot, hf'⟩ : ∃ f f',
      run (ScheduleSteps.State.step 0x1000 1) (start lastTick freeLock) intoSection = some f ∧
      f.spot 0 = some (.loop 1 (2 ^ 32 - 1)) ∧
      run (ScheduleSteps.State.step 0x1000 1) f (List.replicate 8 ⟨.advance 0, true, 7, 7⟩) =
        some f' := ⟨_, _, rfl, rfl, rfl⟩
  exact ⟨f, f', hf, hf', section_bounded 0x1000 1 lastTick freeLock lastTick_started
    ⟨rfl, fun _ => ⟨rfl, rfl⟩⟩ intoSection f f' hf 0 (by decide) 1 _ hspot _ hf' (by decide)⟩

end Holding

end Dmos.Proofs.SpinProgress
