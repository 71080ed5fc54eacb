import Dmos.Proofs.Boot
import Dmos.Proofs.Scan
import Dmos.Schedule

namespace Dmos.Proofs.Placement
open Schedule Scan Boot

/-- Every core has a created task of its own, and those are the running ones. -/
structure Placed (smp : Nat) (s : Sys) : Prop extends Created s.kernel where
  owned : ∀ c < smp, ∃ t < s.kernel.taskCount, s.current c = some t
  exclusive : ∀ c < smp, ∀ d < smp, ∀ t, s.current c = some t → s.current d = some t → c = d
  running : ∀ t < s.kernel.taskCount,
    (s.kernel.taskList t).state = .running ↔ ∃ c < smp, s.current c = some t

/-- Everything `_schedule` can do on behalf of the timer. -/
inductive Switched (smp : Nat) (s : Sys) (c : Nat) : Sys → Prop where
  | quit (hq : s.kernel.taskCount = smp) : Switched smp s c s
  | miss (t next : Nat) (ht : s.current c = some t)
      (hs : s.kernel.scan (s.kernel.taskList t).id = (next, false)) : Switched smp s c s
  | pick (t next : Nat) (ht : s.current c = some t)
      (hs : s.kernel.scan (s.kernel.taskList t).id = (next, true))
      (hm : (s.kernel.taskList t).id < maxTasks) :
      Switched smp s c
        { kernel := (s.kernel.setState (s.kernel.taskList t).id .waiting).setState next .running
          current := Function.update s.current c (some next) }

variable {cpuAt : Word → Option Nat} {smp c : Nat} {s s' : Sys}

theorem schedule_cases (h : s._schedule cpuAt smp c .frame = some s') : Switched smp s c s' := by
  unfold Sys._schedule at h
  split at h
  · rename_i hq
    cases h
    exact .quit hq
  simp only [Option.bind_eq_bind, Option.bind_eq_some_iff] at h
  obtain ⟨t, ht, ⟨k, stored, next⟩, hk, h⟩ := h
  -- whichever way the scan ended, the frame is all that is written after it
  have hs' : s' = { kernel := k, current := Function.update s.current c (stored.or (s.current c)) } := by
    split at h
    · exact (Option.some.inj h).symm
    · obtain ⟨f, -, hf⟩ := Option.map_eq_some_iff.mp h
      exact hf.symm
  unfold Kernel.criticalSection at hk
  simp only at hk
  split at hk
  · rename_i hs
    cases hk
    have hsame : s' = s := by rw [hs', Option.none_or, Function.update_eq_self]
    rw [hsame]
    exact .miss t _ ht hs
  · rename_i hs
    split at hk
    · rename_i hm
      cases hk
      rw [hs']
      exact .pick t _ ht hs hm
    · cases hk

section Frame

variable (h : Switched smp s c s')
include h

theorem Switched.taskCount : s'.kernel.taskCount = s.kernel.taskCount := by
  cases h <;> rfl

theorem Switched.counter (t : Nat) :
    (s'.kernel.taskList t).counter = (s.kernel.taskList t).counter := by
  cases h <;> simp

theorem Switched.current_of_ne {d : Nat} (hd : d ≠ c) : s'.current d = s.current d := by
  cases h with
  | quit | miss => rfl
  | pick => exact Function.update_of_ne hd _ _

end Frame

/-- The fault paths are not taken. -/
theorem Placed.schedule_runs (h : Placed smp s) (hc : c < smp) (cpuAt : Word → Option Nat) :
    ∃ s', s._schedule cpuAt smp c .frame = some s' := by
  obtain ⟨t, ht, hcur⟩ := h.owned c hc
  have hid := h.id t ht
  have hm : t < maxTasks := Nat.lt_of_lt_of_le ht h.bounded
  have hnext := scan_fst s.kernel t
  unfold Sys._schedule
  split
  · exact ⟨s, rfl⟩
  simp only [hcur, Option.bind_eq_bind, Option.bind_some, Kernel.criticalSection, hid]
  rcases hs : s.kernel.scan t with ⟨next, found⟩
  rw [hs] at hnext
  cases found with
  | false =>
    simp only [Option.bind_some]
    split
    · exact ⟨_, rfl⟩
    · rename_i hn
      rw [Kernel.switchContextEl, h.cpuInfo next (hnext.resolve_left hn)]
      exact ⟨_, rfl⟩
  | true =>
    simp only [hm, ↓reduceIte, Option.bind_some]
    split
    · exact ⟨_, rfl⟩
    · rename_i hn
      have hcpu := h.cpuInfo next (hnext.resolve_left hn)
      simp only [Kernel.switchContextEl, Kernel.setState_cpuInfo, hcpu]
      exact ⟨_, rfl⟩

/-- A break of the scan is at a task that is not running. -/
theorem scan_true {k : Kernel} {id next : Nat} (hs : k.scan id = (next, true)) :
    next < k.taskCount ∧ (k.taskList next).state ≠ .running := by
  unfold Kernel.scan at hs
  rcases scanFrom_cases k id (k.taskCount - 1) 1 (2 ^ 32 - 1) with ⟨j, hj, _, hne, he⟩ | ⟨_, he⟩
  · rw [he] at hs
    obtain rfl := (Prod.mk.inj hs).1
    exact ⟨candidate_lt _ (by omega), hne⟩
  · rw [he] at hs
    exact absurd (Prod.mk.inj hs).2 (by decide)

theorem Placed.switched (h : Placed smp s) (hc : c < smp) (hs : Switched smp s c s') :
    Placed smp s' := by
  cases hs with
  | quit | miss => exact h
  | pick t next ht hs hm =>
    obtain ⟨hlt, hwait⟩ := scan_true hs
    obtain ⟨t', ht', hcur⟩ := h.owned c hc
    obtain rfl : t' = t := Option.some.inj (hcur.symm.trans ht)
    rw [h.id t' ht']
    have hfree : ∀ d < smp, s.current d ≠ some next := by
      intro d hd he
      exact hwait ((h.running next hlt).mpr ⟨d, hd, he⟩)
    refine ⟨h.toCreated.congr rfl (by simp) (by simp), ?_, ?_, ?_⟩
    · intro d hd
      by_cases hdc : d = c
      · exact ⟨next, hlt, by simp [hdc]⟩
      · obtain ⟨u, hu, he⟩ := h.owned d hd
        exact ⟨u, hu, by simpa [hdc] using he⟩
    · intro d hd e he u
      exact Lib.exclusive_move (X := fun _ => True) (Function.update_self c (some next) s.current)
        (fun d hdc => Function.update_of_ne hdc _ _) (fun d hd e he t _ => h.exclusive d hd e he t)
        (fun _ => hfree) d hd e he u trivial
    · intro u hu
      simp only [Kernel.setState_taskCount] at hu
      simp only [Kernel.setState_state, Function.update_apply]
      by_cases hun : u = next
      · simp only [hun, ↓reduceIte, true_iff]
        exact ⟨c, hc, by simp⟩
      by_cases hut : u = t'
      · -- the task that `c` leaves is on no other core
        subst hut
        simp only [hun, ↓reduceIte, reduceCtorEq, false_iff]
        rintro ⟨d, hd, he⟩
        split at he
        · exact hun (Option.some.inj he).symm
        · exact ‹¬ d = c› (h.exclusive d hd c hc u he hcur)
      · simp only [hun, hut, ↓reduceIte, h.running u hu]
        constructor
        · rintro ⟨d, hd, he⟩
          have hdc : d ≠ c := by
            rintro rfl
            exact hut (Option.some.inj (he.symm.trans hcur))
          exact ⟨d, hd, by simpa [hdc] using he⟩
        · rintro ⟨d, hd, he⟩
          split at he
          · exact absurd (Option.some.inj he).symm hun
          · exact ⟨d, hd, he⟩

/-- A kernel that differs in counters only. -/
theorem Placed.setCounter (h : Placed smp s) (t n : Nat) :
    Placed smp { s with kernel := s.kernel.setCounter t n } where
  toCreated := h.toCreated.congr rfl (by simp) (by simp)
  owned := h.owned
  exclusive := h.exclusive
  running := fun u hu => by
    simp only [Kernel.setCounter_state]
    exact h.running u hu

theorem Placed.createTask (h : Placed smp s) (f st : Word) :
    Placed smp { s with kernel := s.kernel.createTask f st } := by
  by_cases hfull : maxTasks ≤ s.kernel.taskCount
  · rw [createTask_full hfull]
    exact h
  have hcount := createTask_taskCount hfull f st
  refine ⟨h.toCreated.createTask f st, ?_, h.exclusive, ?_⟩
  · intro c hc
    obtain ⟨t, ht, he⟩ := h.owned c hc
    refine ⟨t, ?_, he⟩
    show t < (s.kernel.createTask f st).taskCount
    omega
  · intro t ht
    have htc : t < (s.kernel.createTask f st).taskCount := ht
    simp only [createTask_taskList hfull]
    split
    · -- no core can have the new task yet
      simp only [reduceCtorEq, false_iff]
      rintro ⟨c, hc, he⟩
      obtain ⟨u, hu, hcur⟩ := h.owned c hc
      have := Option.some.inj (hcur.symm.trans he)
      omega
    · exact h.running t (by omega)

section Boot

variable (tasks : List (Word × Word))

theorem booted_succ (n : Nat) : booted (n + 1) tasks = (booted n tasks).scheduleInitLocal n :=
  Nat.fold_succ ..

/-- `schedule_init_local` on the first `n` cores writes their states and their
`current_thread`, nothing else. -/
theorem booted_spec (n : Nat) :
    (booted n tasks).kernel.taskCount = (Smp.handoff tasks).kernel.taskCount ∧
    (∀ t, ((booted n tasks).kernel.taskList t).id = ((Smp.handoff tasks).kernel.taskList t).id ∧
      ((booted n tasks).kernel.taskList t).cpuInfo = ((Smp.handoff tasks).kernel.taskList t).cpuInfo ∧
      ((booted n tasks).kernel.taskList t).counter = ((Smp.handoff tasks).kernel.taskList t).counter ∧
      ((booted n tasks).kernel.taskList t).state =
        if t < n then .running else ((Smp.handoff tasks).kernel.taskList t).state) ∧
    ∀ c, (booted n tasks).current c = if c < n then some c else none := by
  induction n with
  | zero =>
    refine ⟨rfl, fun t => ⟨rfl, rfl, rfl, ?_⟩, fun c => ?_⟩
    · rw [if_neg (Nat.not_lt_zero t)]
      rfl
    · rw [if_neg (Nat.not_lt_zero c)]
      rfl
  | succ n ih =>
    obtain ⟨hcount, htask, hcur⟩ := ih
    rw [booted_succ]
    refine ⟨hcount, fun t => ?_, fun c => ?_⟩
    · obtain ⟨hid, hcpu, hctr, hst⟩ := htask t
      simp only [Sys.scheduleInitLocal, Kernel.setState_id, Kernel.setState_cpuInfo,
        Kernel.setState_counter, Kernel.setState_state, hid, hcpu, hctr, hst, true_and]
      grind
    · simp only [Sys.scheduleInitLocal, Function.update_apply, hcur]
      grind

theorem placed_booted (h : smp ≤ min tasks.length maxTasks) : Placed smp (booted smp tasks) := by
  have hlist := handoff_listed tasks
  obtain ⟨hcount, htask, hcur⟩ := booted_spec tasks smp
  have hlen := hlist.count
  refine ⟨hlist.toCreated.congr hcount (fun t => (htask t).1) (fun t => (htask t).2.1), ?_, ?_, ?_⟩
  · intro c hc
    exact ⟨c, by omega, by rw [hcur, if_pos hc]⟩
  · intro c hc d hd t hct hdt
    rw [hcur, if_pos hc] at hct
    rw [hcur, if_pos hd] at hdt
    exact Option.some.inj (hct.trans hdt.symm)
  · intro t ht
    rw [(htask t).2.2.2]
    constructor
    · intro hrun
      by_cases hts : t < smp
      · exact ⟨t, hts, by rw [hcur, if_pos hts]⟩
      · rw [if_neg hts, hlist.waiting t (by omega)] at hrun
        cases hrun
    · rintro ⟨c, hc, hct⟩
      rw [hcur, if_pos hc] at hct
      rw [if_pos (by have := Option.some.inj hct; omega)]

end Boot

end Dmos.Proofs.Placement
