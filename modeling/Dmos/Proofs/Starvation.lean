import Dmos.Proofs.Placement

namespace Dmos.Proofs.Starvation
open Schedule Scan Placement

/-- How many steps ahead of task `t` the round-robin order of `n` tasks meets `w`. -/
def ahead (n t w : Nat) : Nat := if t ≤ w then w - t else w + n - t

variable {cpuAt : Word → Option Nat} {smp c : Nat} {s s' : Sys}

theorem candidate_eq {k : Kernel} {t j : Nat} (hb : k.taskCount ≤ maxTasks) (ht : t < k.taskCount)
    (hj : j < k.taskCount) :
    candidate k t j = if t + j < k.taskCount then t + j else t + j - k.taskCount := by
  simp only [maxTasks] at hb
  unfold candidate
  rw [Nat.mod_eq_of_lt (by omega : t + j < 2 ^ 32)]
  split
  · exact Nat.mod_eq_of_lt ‹_›
  · rw [Nat.mod_eq_sub_mod (by omega), Nat.mod_eq_of_lt (by omega)]

/-- The first candidate that waits is not behind `w`, and unless it is `w` itself
the distance to `w` has become smaller. -/
theorem scan_nearer {k : Kernel} {t w : Nat} (hb : k.taskCount ≤ maxTasks) (ht : t < k.taskCount)
    (hw : w < k.taskCount) (hne : w ≠ t) (hwait : (k.taskList w).state ≠ .running) :
    ∃ next, k.scan t = (next, true) ∧ next < k.taskCount ∧
      (next = w ∨ ahead k.taskCount next w < ahead k.taskCount t w) := by
  obtain ⟨j, hj, hjn, hall, -, hs⟩ := scan_found ht hb hw hne hwait
  refine ⟨candidate k t j, hs, candidate_lt j (by omega), ?_⟩
  have hlt : ahead k.taskCount t w < k.taskCount := by
    unfold ahead
    split <;> omega
  have hpos : 1 ≤ ahead k.taskCount t w := by
    unfold ahead
    split <;> omega
  have hat : candidate k t (ahead k.taskCount t w) = w := by
    rw [candidate_eq hb ht hlt]
    unfold ahead
    split <;> split <;> omega
  have hle : j ≤ ahead k.taskCount t w := by
    by_contra hgt
    exact hwait (hat ▸ hall _ hpos (by omega))
  rcases Nat.eq_or_lt_of_le hle with heq | hnear
  · left
    rw [heq, hat]
  · right
    rw [candidate_eq hb ht hjn]
    unfold ahead at hnear ⊢
    split at hnear <;> split <;> split <;> omega

/-- A scheduling step of any core while `w` waits: `w` gets its core, or the current
task of `c` is nearer to it if the step was one of `c`, and no farther otherwise. -/
theorem schedule_nearer (hp : Placed smp s) (hn : smp < s.kernel.taskCount) (hc : c < smp)
    {d w t : Nat} (hw : w < s.kernel.taskCount)
    (hwait : (s.kernel.taskList w).state ≠ .running) (hcur : s.current c = some t)
    (hs : s._schedule cpuAt smp d .frame = some s') :
    (s'.kernel.taskList w).state = .running ∨
      ∃ t', s'.current c = some t' ∧
        ahead s.kernel.taskCount t' w + (if d = c then 1 else 0) ≤ ahead s.kernel.taskCount t w := by
  by_cases hdc : d = c
  · subst hdc
    obtain ⟨u, hu, hown⟩ := hp.owned d hc
    obtain rfl : u = t := Option.some.inj (hown.symm.trans hcur)
    have hrun := (hp.running u hu).mpr ⟨d, hc, hcur⟩
    have hne : w ≠ u := by
      rintro rfl
      exact hwait hrun
    obtain ⟨next, hscan, -, hnear⟩ := scan_nearer hp.bounded hu hw hne hwait
    cases schedule_cases hs with
    | quit hq => omega
    | miss v n hv hmiss =>
      obtain rfl : v = u := Option.some.inj (hv.symm.trans hcur)
      rw [hp.id v hu, hscan] at hmiss
      cases hmiss
    | pick v n hv hpick hm =>
      obtain rfl : v = u := Option.some.inj (hv.symm.trans hcur)
      rw [hp.id v hu, hscan] at hpick
      obtain ⟨rfl, -⟩ := Prod.mk.inj hpick
      rcases hnear with rfl | hlt
      · left
        simp
      · right
        refine ⟨next, by simp, ?_⟩
        simp only [↓reduceIte]
        omega
  · right
    refine ⟨t, ?_, by simp [hdc]⟩
    rw [(schedule_cases hs).current_of_ne (Ne.symm hdc)]
    exact hcur

/-- The run of scheduling steps: `w` is running at some point as soon as `c` has made
as many of them as its current task was away from `w`. -/
theorem runs_within (hc : c < smp) {w : Nat} (cs : List Nat) (s : Sys) (hp : Placed smp s)
    (hn : smp < s.kernel.taskCount) (hcs : ∀ d ∈ cs, d < smp) (hw : w < s.kernel.taskCount)
    (hwait : (s.kernel.taskList w).state ≠ .running) {t : Nat} (hcur : s.current c = some t)
    (hcount : ahead s.kernel.taskCount t w ≤ cs.count c) :
    ∃ pre post m, cs = pre ++ post ∧
      Lib.run (fun s d => s._schedule cpuAt smp d .frame) s pre = some m ∧
      (m.kernel.taskList w).state = .running := by
  induction cs generalizing s t with
  | nil =>
    -- the distance is zero for the current task only, which does run
    obtain ⟨u, hu, hown⟩ := hp.owned c hc
    obtain rfl : u = t := Option.some.inj (hown.symm.trans hcur)
    have hne : w ≠ u := by
      rintro rfl
      exact hwait ((hp.running w hu).mpr ⟨c, hc, hcur⟩)
    rw [List.count_nil] at hcount
    unfold ahead at hcount
    split at hcount <;> omega
  | cons d cs ih =>
    have hd := hcs d List.mem_cons_self
    obtain ⟨s', hs⟩ := hp.schedule_runs hd cpuAt
    have hsw := schedule_cases hs
    rcases schedule_nearer hp hn hc hw hwait hcur hs with hrun | ⟨t', hcur', hnear⟩
    · exact ⟨[d], cs, s', rfl, by simp [Lib.run_cons, hs], hrun⟩
    by_cases hrun : (s'.kernel.taskList w).state = .running
    · exact ⟨[d], cs, s', rfl, by simp [Lib.run_cons, hs], hrun⟩
    rw [List.count_cons] at hcount
    simp only [beq_iff_eq] at hcount
    obtain ⟨pre, post, m, rfl, hm, hmrun⟩ := ih s' (hp.switched hd hsw) (by rwa [hsw.taskCount])
      (fun e he => hcs e (List.mem_cons_of_mem d he)) (by rwa [hsw.taskCount]) hrun hcur'
      (by rw [hsw.taskCount]; omega)
    refine ⟨d :: pre, post, m, rfl, ?_, hmrun⟩
    rw [Lib.run_cons, hs]
    exact hm

/-- Whatever the other cores do, a waiting task has been running by the time some
core has executed `_schedule` `task_count - 1` times. -/
theorem no_starvation (cpuAt : Word → Option Nat) (smp : Nat) (s : Sys) (hp : Placed smp s)
    (hn : smp < s.kernel.taskCount) (cs : List Nat) (hcs : ∀ d ∈ cs, d < smp) (c : Nat) (hc : c < smp)
    (hcount : s.kernel.taskCount - 1 ≤ cs.count c) (w : Nat) (hw : w < s.kernel.taskCount)
    (hwait : (s.kernel.taskList w).state ≠ .running) :
    ∃ pre post m, cs = pre ++ post ∧
      Lib.run (fun s d => s._schedule cpuAt smp d .frame) s pre = some m ∧
      (m.kernel.taskList w).state = .running := by
  obtain ⟨t, ht, hcur⟩ := hp.owned c hc
  refine runs_within hc cs s hp hn hcs hw hwait hcur (Nat.le_trans ?_ hcount)
  unfold ahead
  split <;> omega

/-- Two cores and four tasks: the last one has its turn while core 1 also schedules. -/
theorem no_starvation_last :
    ∃ pre post m, [0, 1, 0, 1, 0] = pre ++ post ∧
      Lib.run (fun s d => s._schedule (fun _ => none) 2 d .frame)
        (booted 2 [(1, 1), (2, 2), (3, 3), (4, 4)]) pre = some m ∧
      (m.kernel.taskList 3).state = .running :=
  no_starvation (fun _ => none) 2 (booted 2 [(1, 1), (2, 2), (3, 3), (4, 4)])
    (placed_booted _ (by decide)) (by decide +kernel) [0, 1, 0, 1, 0] (by decide) 0 (by decide)
    (by decide +kernel) 3 (by decide +kernel) (by decide +kernel)

end Dmos.Proofs.Starvation
