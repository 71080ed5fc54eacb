import Dmos.Smp
import Dmos.Lib.Cover

namespace Dmos.Proofs.Scan

variable {k : Kernel} {id : Nat}

/-- The candidate of loop index `i`. -/
def candidate (k : Kernel) (id i : Nat) : Nat := (id + i) % 2 ^ 32 % k.taskCount

/-- The loop either breaks at the first candidate that is not running or tries
them all and leaves the last one behind. -/
theorem scanFrom_cases (k : Kernel) (id n i next : Nat) :
    (∃ j < n, (∀ l < j, (k.taskList (candidate k id (i + l))).state = .running) ∧
      (k.taskList (candidate k id (i + j))).state ≠ .running ∧
      k.scanFrom id n i next = (candidate k id (i + j), true)) ∨
    ((∀ l < n, (k.taskList (candidate k id (i + l))).state = .running) ∧
      k.scanFrom id n i next = (if n = 0 then next else candidate k id (i + n - 1), false)) := by
  induction n generalizing i next with
  | zero => right; simp [Kernel.scanFrom]
  | succ n ih =>
    by_cases hr : (k.taskList (candidate k id i)).state = .running
    · have hstep : k.scanFrom id (n + 1) i next = k.scanFrom id n (i + 1) (candidate k id i) := by
        simp only [candidate] at hr
        simp only [Kernel.scanFrom, hr, ↓reduceIte, candidate]
      rw [hstep]
      -- the index shifts by one: loop index `i + 1 + l` here is `i + (l + 1)` outside
      rcases ih (i + 1) (candidate k id i) with ⟨j, hj, hall, hne, he⟩ | ⟨hall, he⟩
      · left
        refine ⟨j + 1, by omega, ?_, ?_, ?_⟩
        · intro l hl
          cases l with
          | zero => exact hr
          | succ l => simpa [Nat.add_assoc, Nat.add_comm 1] using hall l (by omega)
        · simpa [Nat.add_assoc, Nat.add_comm 1] using hne
        · simpa [Nat.add_assoc, Nat.add_comm 1] using he
      · right
        refine ⟨?_, ?_⟩
        · intro l hl
          cases l with
          | zero => exact hr
          | succ l => simpa [Nat.add_assoc, Nat.add_comm 1] using hall l (by omega)
        · rw [he]
          cases n with
          | zero => simp
          | succ n => simp [Nat.add_assoc, Nat.add_comm 1]
    · left
      refine ⟨0, by omega, by omega, hr, ?_⟩
      simp only [candidate] at hr
      simp only [Kernel.scanFrom, hr, ↓reduceIte, candidate, Nat.add_zero]

/-- Every task but the current one is a candidate. -/
theorem candidate_surj {t : Nat} (hid : id < k.taskCount) (ht : t < k.taskCount) (hne : t ≠ id)
    (hb : k.taskCount ≤ maxTasks) :
    ∃ j, 1 ≤ j ∧ j < k.taskCount ∧ candidate k id j = t := by
  simp only [maxTasks] at hb
  rcases Nat.lt_or_gt_of_ne hne with h | h
  · refine ⟨t + k.taskCount - id, by omega, by omega, ?_⟩
    have he : id + (t + k.taskCount - id) = t + k.taskCount := by omega
    rw [candidate, he, Nat.mod_eq_of_lt (by omega : t + k.taskCount < 2 ^ 32), Nat.add_mod_right,
      Nat.mod_eq_of_lt ht]
  · refine ⟨t - id, by omega, by omega, ?_⟩
    have he : id + (t - id) = t := by omega
    rw [candidate, he, Nat.mod_eq_of_lt (by omega : t < 2 ^ 32), Nat.mod_eq_of_lt ht]

theorem candidate_lt (i : Nat) (hc : 0 < k.taskCount) : candidate k id i < k.taskCount :=
  Nat.mod_lt _ hc

/-- With two tasks or more, found or not, `next_task_id` is a task of the table. -/
theorem scan_lt (k : Kernel) (id : Nat) (hc : 1 < k.taskCount) : (k.scan id).1 < k.taskCount := by
  rcases scanFrom_cases k id (k.taskCount - 1) 1 (2 ^ 32 - 1) with
    ⟨j, _, _, _, he⟩ | ⟨_, he⟩
  · rw [Kernel.scan, he]
    exact candidate_lt _ (by omega)
  · rw [Kernel.scan, he, if_neg (by omega)]
    exact candidate_lt _ (by omega)

/-- With fewer there is no candidate. -/
theorem scan_none (k : Kernel) (id : Nat) (hc : k.taskCount ≤ 1) : k.scan id = (2 ^ 32 - 1, false) := by
  rw [Kernel.scan, Nat.sub_eq_zero_of_le hc]
  rfl

theorem scan_fst (k : Kernel) (id : Nat) :
    (k.scan id).1 = 2 ^ 32 - 1 ∨ (k.scan id).1 < k.taskCount := by
  rcases Nat.lt_or_ge 1 k.taskCount with hc | hc
  · exact .inr (scan_lt k id hc)
  · exact .inl (by rw [scan_none k id hc])

/-- A search that breaks does so at a task of the table. -/
theorem scan_ne_sentinel {next : Nat} (hb : k.taskCount ≤ maxTasks) (h : k.scan id = (next, true)) :
    next ≠ 2 ^ 32 - 1 := by
  simp only [maxTasks] at hb
  rcases Nat.lt_or_ge 1 k.taskCount with hc | hc
  · have hlt := scan_lt k id hc
    rw [h] at hlt
    omega
  · simp [scan_none k id hc] at h

/-- With some other task waiting, the search breaks at the first such task. -/
theorem scan_found {t : Nat} (hid : id < k.taskCount) (hb : k.taskCount ≤ maxTasks)
    (ht : t < k.taskCount) (hne : t ≠ id) (hw : (k.taskList t).state ≠ .running) :
    ∃ j, 1 ≤ j ∧ j < k.taskCount ∧
      (∀ l, 1 ≤ l → l < j → (k.taskList (candidate k id l)).state = .running) ∧
      (k.taskList (candidate k id j)).state ≠ .running ∧
      k.scan id = (candidate k id j, true) := by
  obtain ⟨i, hi, hit, rfl⟩ := candidate_surj hid ht hne hb
  rcases scanFrom_cases k id (k.taskCount - 1) 1 (2 ^ 32 - 1) with
    ⟨j, hj, hall, hn, he⟩ | ⟨hall, _⟩
  · refine ⟨1 + j, by omega, by omega, ?_, hn, he⟩
    intro l hl hlj
    simpa [Nat.add_sub_cancel' hl] using hall (l - 1) (by omega)
  · refine absurd ?_ hw
    simpa [Nat.add_sub_cancel' hi] using hall (i - 1) (by omega)

/-- What the search returns is a waiting task of the table. -/
theorem scan_waiting {t : Nat} (hid : id < k.taskCount) (hb : k.taskCount ≤ maxTasks)
    (ht : t < k.taskCount) (hne : t ≠ id) (hw : (k.taskList t).state ≠ .running) :
    ∃ next < k.taskCount, (k.taskList next).state ≠ .running ∧ k.scan id = (next, true) := by
  obtain ⟨j, _, _, _, hn, he⟩ := scan_found hid hb ht hne hw
  exact ⟨candidate k id j, candidate_lt j (by omega), hn, he⟩

end Dmos.Proofs.Scan
