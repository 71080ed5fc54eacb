import Mathlib.Data.Fintype.Pi
import Dmos.Proofs.Boot
import Dmos.Proofs.Scan
import Dmos.Proofs.Steps

namespace Dmos.Proofs.Exclusion
open Smp Scan Boot Steps

/-- A core that has finished `schedule_init_local`. -/
def Ready (x : Core) : Prop := x.pc ≠ .boot ∧ x.pc ≠ .adopted

/-- What the local variables of the handler still say about `current_thread`.
Only the core itself stores to it, so the copy read before the lock is good. -/
def LocalsAgree (x : Core) : Prop :=
  match x.pc with
  | .boot => x.current = none
  | .ticked t | .entered t | .picked _ t => x.current = some t
  | _ => True

/-- Mutual exclusion on the tasks in `X`, stated for cores on both sides of
`schedule_init_local`. A core that has not adopted its boot task yet keeps that
task reserved. Coverage of the running tasks needs no exclusion at all. -/
structure Inv (X : Nat → Prop) (smp : Nat) (s : State) : Prop extends Created s.kernel where
  fits : smp ≤ s.kernel.taskCount
  locals : ∀ c < smp, LocalsAgree (s.core c)
  adopted : ∀ c < smp, (s.core c).pc = .adopted → (s.core c).current = some c
  owned : ∀ c < smp, (s.core c).pc ≠ .boot → ∃ t < s.kernel.taskCount, (s.core c).current = some t
  covered : ∀ t < s.kernel.taskCount, (s.kernel.taskList t).state = .running →
    ∃ c < smp, (s.core c).current = some t
  held : ∀ c < smp, ∀ t, X t → Ready (s.core c) → (s.core c).current = some t →
    (s.kernel.taskList t).state = .running
  exclusive : ∀ c < smp, ∀ d < smp, ∀ t, X t → (s.core c).current = some t →
    (s.core d).current = some t → c = d
  surplus : ∀ c < smp, ∀ t, (s.core c).pc = .entered t → smp < s.kernel.taskCount
  reserved : ∀ c < smp, X c → (s.core c).pc = .boot → ∀ d < smp, (s.core d).current ≠ some c

/-- The scan must not take the boot task of a core that is still to finish
`schedule_init_local`. Nothing in the code enforces this. -/
def Undisturbed (X : Nat → Prop) (smp : Nat) (s : State) (e : Event) : Prop :=
  ∀ c curr, e = .advance c → c < smp → (s.core c).pc = .entered curr →
    ∀ d < smp, X d → ¬ Ready (s.core d) → (s.kernel.scan (s.kernel.taskList curr).id).1 ≠ d

variable {X : Nat → Prop} {smp : Nat} {s : State}

/-- A step of a ready core that touches neither a task state nor any
`current_thread` keeps the invariant, whatever program counter it ends at. -/
theorem Inv.quiet (h : Inv X smp s) {c : Nat} {x : Core} {k : Kernel}
    (hr : Ready (s.core c)) (hx : Ready x) (hcur : x.current = (s.core c).current)
    (hloc : LocalsAgree x) (hsur : ∀ t, x.pc = .entered t → smp < s.kernel.taskCount)
    (hcount : k.taskCount = s.kernel.taskCount)
    (hid : ∀ t, (k.taskList t).id = (s.kernel.taskList t).id)
    (hcpu : ∀ t, (k.taskList t).cpuInfo = (s.kernel.taskList t).cpuInfo)
    (hst : ∀ t, (k.taskList t).state = (s.kernel.taskList t).state) :
    Inv X smp ((s.withKernel k).setCore c x) := by
  have hcurrent : ∀ d, ((((s.withKernel k).setCore c x).core d).current) = (s.core d).current := by
    intro d
    simp only [setCore_core, withKernel_core]
    split
    · rename_i he; rw [he, hcur]
    · rfl
  have hready : ∀ d, Ready (((s.withKernel k).setCore c x).core d) ↔ Ready (s.core d) := by
    intro d
    simp only [setCore_core, withKernel_core]
    split
    · rename_i he; rw [he]; exact ⟨fun _ => hr, fun _ => hx⟩
    · exact Iff.rfl
  have hpc : ∀ d, d ≠ c → (((s.withKernel k).setCore c x).core d).pc = (s.core d).pc := by
    intro d hd
    simp [hd]
  refine ⟨h.toCreated.congr hcount hid hcpu, by simpa [hcount] using h.fits,
    ?_, ?_, ?_, ?_, ?_, ?_, ?_, ?_⟩
  · intro d hd
    simp only [setCore_core, withKernel_core]
    split
    · exact hloc
    · exact h.locals d hd
  · intro d hd hp
    rw [hcurrent]
    have hdc : d ≠ c := by rintro rfl; exact ((hready d).mpr hr).2 hp
    exact h.adopted d hd (hpc d hdc ▸ hp)
  · intro d hd hp
    rw [hcurrent]
    simp only [setCore_kernel, withKernel_kernel, hcount]
    by_cases hdc : d = c
    · exact hdc ▸ h.owned c (hdc ▸ hd) hr.1
    · exact h.owned d hd (hpc d hdc ▸ hp)
  · intro t ht hrun
    simp only [setCore_kernel, withKernel_kernel, hcount, hst] at ht hrun
    simp only [hcurrent]
    exact h.covered t ht hrun
  · intro d hd t hX hrd hcd
    rw [hready] at hrd
    rw [hcurrent] at hcd
    simpa only [setCore_kernel, withKernel_kernel, hst] using h.held d hd t hX hrd hcd
  · intro d hd e he t hX ht hu
    rw [hcurrent] at ht hu
    exact h.exclusive d hd e he t hX ht hu
  · intro d hd t hp
    simp only [setCore_kernel, withKernel_kernel, hcount]
    by_cases hdc : d = c
    · exact hsur t (by simpa [hdc] using hp)
    · exact h.surplus d hd t (hpc d hdc ▸ hp)
  · intro d hd hX hp e he
    rw [hcurrent]
    have hdc : d ≠ c := by rintro rfl; exact ((hready d).mpr hr).1 hp
    exact h.reserved d hd hX (hpc d hdc ▸ hp) e he

/-- A core adopts the task of its own number; if that task is in `X` it was
reserved, so no other core has it. -/
theorem Inv.adopt (h : Inv X smp s) {c : Nat} (hc : c < smp) (hp : (s.core c).pc = .boot) :
    Inv X smp { s.setCore c { s.core c with pc := .adopted, current := some c } with
      printLock := some c } := by
  have hnone : (s.core c).current = none := by simpa [LocalsAgree, hp] using h.locals c hc
  have hfits := h.fits
  refine ⟨h.toCreated, h.fits, ?_, ?_, ?_, ?_, ?_, ?_, ?_, ?_⟩
  · intro d hd
    simp only [setCore_core]
    split
    · simp [LocalsAgree]
    · exact h.locals d hd
  · intro d hd hq
    simp only [setCore_core] at hq ⊢
    split
    · rename_i he; simp [he]
    · rename_i hne
      simp only [hne, ↓reduceIte] at hq
      exact h.adopted d hd hq
  · intro d hd hq
    simp only [setCore_core, setCore_kernel] at hq ⊢
    split
    · exact ⟨c, by omega, rfl⟩
    · rename_i hne
      simp only [hne, ↓reduceIte] at hq
      exact h.owned d hd hq
  · intro t ht hrun
    obtain ⟨d, hd, hcd⟩ := h.covered t ht hrun
    have hdc : d ≠ c := by rintro rfl; simp [hnone] at hcd
    exact ⟨d, hd, by simpa [hdc] using hcd⟩
  · intro d hd t hX hrd hcd
    have hdc : d ≠ c := by rintro rfl; simp [Ready] at hrd
    exact h.held d hd t hX (by simpa [hdc] using hrd) (by simpa [hdc] using hcd)
  · apply Lib.exclusive_move (c := c) (n := c) (by simp)
      (fun d hdc => by simp [hdc]) h.exclusive
    exact fun hX => h.reserved c hc hX hp
  · intro d hd t hq
    simp only [setCore_core] at hq
    split at hq
    · cases hq
    · exact h.surplus d hd t hq
  · intro d hd hX hq e he
    simp only [setCore_core] at hq ⊢
    split at hq
    · cases hq
    · rename_i hdc
      split
      · intro heq
        exact hdc (Option.some.inj heq).symm
      · exact h.reserved d hd hX hq e he

theorem Inv.finish (h : Inv X smp s) {c : Nat} (hc : c < smp) (hp : (s.core c).pc = .adopted) :
    Inv X smp { (s.setCore c { s.core c with pc := .user }).withKernel
      (s.kernel.setState c .running) with printLock := none } := by
  have hcur := h.adopted c hc hp
  have hfits := h.fits
  have hcurrent : ∀ d, ((s.setCore c { s.core c with pc := .user }).core d).current =
      (s.core d).current := by
    intro d
    simp only [setCore_core]
    split
    · rename_i he; rw [he]
    · rfl
  refine ⟨h.toCreated.congr rfl (by simp) (by simp), h.fits, ?_, ?_, ?_, ?_, ?_, ?_, ?_, ?_⟩
  · intro d hd
    simp only [withKernel_core, setCore_core]
    split
    · trivial
    · exact h.locals d hd
  · intro d hd hq
    simp only [withKernel_core, hcurrent]
    simp only [withKernel_core, setCore_core] at hq
    split at hq
    · cases hq
    · exact h.adopted d hd hq
  · intro d hd hq
    simp only [withKernel_core, hcurrent, withKernel_kernel, Kernel.setState_taskCount]
    by_cases hdc : d = c
    · exact ⟨c, by omega, hdc ▸ hcur⟩
    · exact h.owned d hd (by simpa [hdc] using hq)
  · intro t ht hrun
    simp only [withKernel_core, hcurrent]
    by_cases htc : t = c
    · exact ⟨c, hc, htc ▸ hcur⟩
    · exact h.covered t ht (by simpa [htc] using hrun)
  · intro d hd t hX hrd hcd
    simp only [withKernel_core, hcurrent] at hcd
    simp only [withKernel_kernel, Kernel.setState_state]
    by_cases hdc : d = c
    · rw [hdc, hcur] at hcd
      simp [Option.some.inj hcd]
    · split
      · rfl
      · exact h.held d hd t hX (by simpa [hdc] using hrd) hcd
  · intro d hd e he t hX ht hu
    simp only [withKernel_core, hcurrent] at ht hu
    exact h.exclusive d hd e he t hX ht hu
  · intro d hd t hq
    simp only [withKernel_core, setCore_core] at hq
    split at hq
    · cases hq
    · exact h.surplus d hd t hq
  · intro d hd hX hq e he
    simp only [withKernel_core, hcurrent]
    simp only [withKernel_core, setCore_core] at hq
    split at hq
    · cases hq
    · exact h.reserved d hd hX hq e he

/-- The current task of a core in `_schedule`. -/
theorem Inv.entered_lt (h : Inv X smp s) {c curr : Nat} (hc : c < smp)
    (hp : (s.core c).pc = .entered curr) :
    (s.core c).current = some curr ∧ curr < s.kernel.taskCount := by
  have hcur : (s.core c).current = some curr := by simpa [LocalsAgree, hp] using h.locals c hc
  obtain ⟨t, ht, he⟩ := h.owned c hc (by simp [hp])
  rw [hcur] at he
  exact ⟨hcur, Option.some.inj he ▸ ht⟩

/-- With more tasks than cores the scan always finds a waiting task: the cores
account for every running one. -/
theorem Inv.scan_finds (h : Inv X smp s) {c curr : Nat} (hc : c < smp)
    (hp : (s.core c).pc = .entered curr) :
    ∃ next < s.kernel.taskCount, (s.kernel.taskList next).state ≠ .running ∧
      s.kernel.scan (s.kernel.taskList curr).id = (next, true) := by
  obtain ⟨hcur, hlt⟩ := h.entered_lt hc hp
  obtain ⟨t, ht, hcover⟩ := Lib.exists_uncovered (fun d => (s.core d).current) (h.surplus c hc curr hp)
  rw [h.id curr hlt]
  refine scan_waiting hlt h.bounded ht ?_ ?_
  · rintro rfl
    exact hcover c hc hcur
  · intro hrun
    obtain ⟨d, hd, hcd⟩ := h.covered t ht hrun
    exact hcover d hd hcd

/-- The task that a core is about to install is its `current_thread`. -/
theorem Inv.task_of_picked (h : Inv X smp s) {c p t : Nat} (hc : c < smp)
    (hp : (s.core c).pc = .picked p t) :
    (s.core c).current = some t ∧ t < s.kernel.taskCount := by
  have hcur : (s.core c).current = some t := by simpa [LocalsAgree, hp] using h.locals c hc
  obtain ⟨u, hu, hcu⟩ := h.owned c hc (by simp [hp])
  exact ⟨hcur, Option.some.inj (hcu.symm.trans hcur) ▸ hu⟩

/-- A waiting task of `X` that is not reserved is nobody's `current_thread`. -/
theorem Inv.not_current (h : Inv X smp s) {next : Nat} (hX : X next)
    (hw : (s.kernel.taskList next).state ≠ .running)
    (hfree : ∀ d < smp, X d → ¬ Ready (s.core d) → next ≠ d) :
    ∀ d < smp, (s.core d).current ≠ some next := by
  intro d hd hcd
  by_cases hr : Ready (s.core d)
  · exact hw (h.held d hd next hX hr hcd)
  · have hpc : (s.core d).pc = .boot ∨ (s.core d).pc = .adopted := by
      unfold Ready at hr; tauto
    rcases hpc with hb | ha
    · have hn : (s.core d).current = none := by simpa [LocalsAgree, hb] using h.locals d hd
      simp [hn] at hcd
    · rw [h.adopted d hd ha, Option.some.injEq] at hcd
      exact hfree d hd (hcd ▸ hX) hr hcd.symm

/-- The critical section moves the core from its task to one that no core has. -/
theorem Inv.pick (h : Inv X smp s) {c curr next : Nat} (hc : c < smp)
    (hp : (s.core c).pc = .entered curr) (hu : Undisturbed X smp s (.advance c))
    (hs : s.kernel.scan (s.kernel.taskList curr).id = (next, true)) :
    Inv X smp ((s.withKernel ((s.kernel.setState (s.kernel.taskList curr).id .waiting).setState next
      .running)).setCore c { s.core c with
        pc := if next = 2 ^ 32 - 1 then .user else .picked curr next, current := some next }) := by
  obtain ⟨hcur, hcl⟩ := h.entered_lt hc hp
  obtain ⟨n, hlt, hw, hscan⟩ := h.scan_finds hc hp
  obtain rfl : n = next := congrArg Prod.fst (hscan.symm.trans hs)
  have hfree : ∀ d < smp, X d → ¬ Ready (s.core d) → n ≠ d := by
    intro d hd hX hr
    simpa [hscan] using hu c curr rfl hc hp d hd hX hr
  have hnew : X n → ∀ d < smp, (s.core d).current ≠ some n := fun hX => h.not_current hX hw hfree
  rw [h.id curr hcl, if_neg (scan_ne_sentinel h.bounded hs)]
  refine ⟨h.toCreated.congr rfl (by simp) (by simp), h.fits, ?_, ?_, ?_, ?_, ?_, ?_, ?_, ?_⟩
  · intro d hd
    simp only [setCore_core, withKernel_core]
    split
    · simp [LocalsAgree]
    · exact h.locals d hd
  · intro d hd hq
    simp only [setCore_core, withKernel_core] at hq ⊢
    split
    · rename_i he; simp [he] at hq
    · rename_i hdc
      simp only [hdc, ↓reduceIte] at hq
      exact h.adopted d hd hq
  · intro d hd hq
    simp only [setCore_core, withKernel_core] at hq ⊢
    split
    · exact ⟨n, hlt, rfl⟩
    · rename_i hdc
      simp only [hdc, ↓reduceIte] at hq
      exact h.owned d hd hq
  · intro t ht hrun
    by_cases htn : t = n
    · exact ⟨c, hc, by simp [htn]⟩
    · have htc : t ≠ curr := by
        rintro rfl
        simp [htn] at hrun
      obtain ⟨d, hd, hcd⟩ := h.covered t ht (by simpa [htn, htc] using hrun)
      have hdc : d ≠ c := by
        rintro rfl
        exact htc (Option.some.inj (hcd.symm.trans hcur))
      exact ⟨d, hd, by simpa [hdc] using hcd⟩
  · intro d hd t hX hrd hcd
    simp only [setCore_kernel, withKernel_kernel, Kernel.setState_state]
    by_cases hdc : d = c
    · simp only [hdc, setCore_core, ↓reduceIte, Option.some.injEq] at hcd
      simp [hcd]
    · simp only [setCore_core, hdc, ↓reduceIte, withKernel_core] at hrd hcd
      -- only core `c` had the old task, and it has left it
      have htc : t ≠ curr := by
        rintro rfl
        exact hdc (h.exclusive d hd c hc t hX hcd hcur)
      simp only [htc, ↓reduceIte]
      split
      · rfl
      · exact h.held d hd t hX hrd hcd
  · apply Lib.exclusive_move (c := c) (n := n) (by simp)
      (fun d hdc => by simp [hdc]) h.exclusive
    exact hnew
  · intro d hd t hq
    simp only [setCore_core, withKernel_core] at hq
    split at hq
    · cases hq
    · exact h.surplus d hd t hq
  · intro d hd hX hq e he
    simp only [setCore_core, withKernel_core] at hq ⊢
    split at hq
    · cases hq
    · split
      · intro heq
        exact hfree d hd hX (by simp [Ready, hq]) (Option.some.inj heq)
      · exact h.reserved d hd hX hq e he

/-- Every step keeps the invariant. -/
theorem Inv.preserved {e : Event} {s' : State} (h : Inv X smp s) (hd : Did smp s e s')
    (hu : Undisturbed X smp s e) : Inv X smp s' := by
  cases hd with
  | stay => exact h
  | adopt c hc hp _ => exact h.adopt hc hp
  | finish c hc hp _ => exact h.finish hc hp
  | save c t cpu frame hc hp ht hcpu =>
    exact h.quiet (by simp [Ready, canTrap_user hp]) (by simp [Ready]) rfl (by simp [LocalsAgree])
      (by simp) rfl (by simp) (by simp) (by simp)
  | tick c t hc hp ht =>
    exact h.quiet (by simp [Ready, hp]) (by simp [Ready]) rfl (by simpa [LocalsAgree] using ht)
      (by simp) rfl (by simp [Kernel.decCounter]) (by simp [Kernel.decCounter])
      (by simp [Kernel.decCounter])
  | goOn c t hc hp hn =>
    exact h.quiet (k := s.kernel) (by simp [Ready, hp]) (by simp [Ready]) rfl
      (by simp [LocalsAgree]) (by simp) rfl (by simp) (by simp) (by simp)
  | renew c t hc hp hn hq =>
    exact h.quiet (by simp [Ready, hp]) (by simp [Ready]) rfl (by simp [LocalsAgree])
      (by simp) rfl (by simp) (by simp) (by simp)
  | enter c t hc hp hn hq =>
    have hcur : (s.core c).current = some t := by simpa [LocalsAgree, hp] using h.locals c hc
    have hfits := h.fits
    exact h.quiet (by simp [Ready, hp]) (by simp [Ready]) rfl (by simpa [LocalsAgree] using hcur)
      (fun _ _ => by omega) rfl (by simp) (by simp) (by simp)
  | miss c t next hc hp hs =>
    obtain ⟨n, _, _, hscan⟩ := h.scan_finds hc hp
    simp [hs] at hscan
  | pick c t next hc hp hs _ => exact h.pick hc hp hu hs
  | install c prev t f hc hp hf _ =>
    exact h.quiet (k := s.kernel) (by simp [Ready, hp]) (by simp [Ready]) rfl
      (by simp [LocalsAgree]) (by simp) rfl (by simp) (by simp) (by simp)

/-- No step faults: every pointer it follows is that of a created task. -/
theorem Inv.progress (h : Inv X smp s) (e : Event) : ∃ s', State.step smp s e = some s' := by
  have hfits := h.fits
  have hbound := h.bounded
  cases e with
  | irq c frame =>
    simp only [State.step]
    split
    case isFalse => exact ⟨s, rfl⟩
    rename_i hc
    unfold State.irq
    split
    case isFalse => exact ⟨s, rfl⟩
    rename_i hcan
    obtain ⟨t, ht, hcur⟩ := h.owned c hc (by simp [canTrap_user hcan])
    simp [hcur, Kernel.saveCpuCtx, h.cpuInfo t ht]
  | advance c =>
    simp only [State.step]
    split
    case isFalse => exact ⟨s, rfl⟩
    rename_i hc
    unfold State.advance
    cases hp : (s.core c).pc with
    | boot => exact ⟨_, rfl⟩
    | adopted => exact ⟨_, if_pos (show c < maxTasks by omega)⟩
    | user => exact ⟨s, rfl⟩
    | trapped =>
      obtain ⟨t, ht, hcur⟩ := h.owned c hc (by simp [hp])
      simp [hcur]
    | ticked curr => exact ⟨_, rfl⟩
    | entered curr =>
      obtain ⟨next, hlt, _, hscan⟩ := h.scan_finds hc hp
      obtain ⟨_, hcl⟩ := h.entered_lt hc hp
      have hid : (s.kernel.taskList curr).id < maxTasks := by rw [h.id curr hcl]; omega
      simp [State.pick, Kernel.criticalSection, hscan, hid]
    | picked prev next =>
      have hlt := (h.task_of_picked hc hp).2
      simp [State.install, Kernel.switchContextEl, h.cpuInfo next hlt]

theorem Inv.step (h : Inv X smp s) (e : Event) (hu : Undisturbed X smp s e) :
    ∃ s', State.step smp s e = some s' ∧ Inv X smp s' := by
  obtain ⟨s', hs⟩ := h.progress e
  exact ⟨s', hs, h.preserved (step_cases hs) hu⟩

/-- No step takes a core back before `schedule_init_local`. -/
theorem step_ready {s' : State} {e : Event} {c : Nat} (hs : State.step smp s e = some s')
    (hr : Ready (s.core c)) : Ready (s'.core c) := by
  have hkeep : ∀ (k : Kernel) (d : Nat) (x : Core), Ready x →
      Ready (((s.withKernel k).setCore d x).core c) := by
    intro k d x hx
    simp only [setCore_core, withKernel_core]
    split
    · exact hx
    · exact hr
  cases step_cases hs with
  | stay => exact hr
  | adopt d hd hp _ =>
    have hcd : c ≠ d := by rintro rfl; exact hr.1 hp
    simpa [hcd] using hr
  | finish d hd hp _ =>
    have hcd : c ≠ d := by rintro rfl; exact hr.2 hp
    simpa [hcd] using hr
  | save d _ _ _ => exact hkeep _ d _ (by simp [Ready])
  | tick d _ => exact hkeep _ d _ (by simp [Ready])
  | goOn d _ => exact hkeep s.kernel d _ (by simp [Ready])
  | renew d _ => exact hkeep _ d _ (by simp [Ready])
  | enter d _ => exact hkeep _ d _ (by simp [Ready])
  | miss d _ _ => exact hkeep s.kernel d _ (by split <;> simp [Ready])
  | pick d _ _ => exact hkeep _ d _ (by dsimp only; split <;> simp [Ready])
  | install d _ _ _ => exact hkeep s.kernel d _ (by simp [Ready])

theorem Started.inv (h : Started smp s) : Inv (fun _ => True) smp s := by
  have hready : ∀ c < smp, Ready (s.core c) := fun c hc => by simp [Ready, h.idle c hc]
  have hfits := h.fits
  refine ⟨h.toCreated, h.fits, ?_, ?_, ?_, ?_, ?_, ?_, ?_, ?_⟩
  · intro c hc
    simp [LocalsAgree, h.idle c hc]
  · intro c hc hp
    exact h.current c hc
  · intro c hc _
    exact ⟨c, by omega, h.current c hc⟩
  · intro t ht hrun
    have hlt := (h.running t ht).mp hrun
    exact ⟨t, hlt, h.current t hlt⟩
  · intro c hc t _ _ hcur
    rw [h.current c hc, Option.some.injEq] at hcur
    subst t
    exact (h.running c (by omega)).mpr hc
  · intro c hc d hd t _ ht hu
    rw [h.current c hc] at ht
    rw [h.current d hd] at hu
    exact Option.some.inj (ht.trans hu.symm)
  · intro c hc t hp
    simp [h.idle c hc] at hp
  · intro c hc _ hp
    simp [h.idle c hc] at hp

/-- Once all cores are ready, nothing is reserved and no scan can go wrong. -/
theorem undisturbed_of_ready (h : ∀ c < smp, Ready (s.core c)) (e : Event) :
    Undisturbed X smp s e :=
  fun _ _ _ _ _ d hd _ hr => absurd (h d hd) hr

/-- The invariant between the end of boot and the end of time. -/
def Settled (smp : Nat) (s : State) : Prop :=
  Inv (fun _ => True) smp s ∧ ∀ c < smp, Ready (s.core c)

theorem Settled.step (h : Settled smp s) (e : Event) :
    ∃ s', State.step smp s e = some s' ∧ Settled smp s' := by
  obtain ⟨s', he, hi⟩ := h.1.step e (undisturbed_of_ready h.2 e)
  exact ⟨s', he, hi, fun c hc => step_ready he (h.2 c hc)⟩

theorem Started.settled (h : Started smp s) : Settled smp s :=
  ⟨Started.inv h, fun c hc => by simp [Ready, h.idle c hc]⟩

/-- From the end of boot on, every run keeps the invariant and never faults. -/
theorem run_settled (h : Settled smp s) (es : List Event) :
    ∃ t, Lib.run (State.step smp) s es = some t ∧ Settled smp t :=
  Lib.run_invariant (C := fun _ _ => True) (fun _ e hi _ => hi.step e) es s h
    (Lib.Along.of_forall (fun _ _ => trivial) es s)

/-- What `_schedule` installs is the saved context of the recorded task. -/
theorem Inv.installed (h : Inv X smp s) {e : Event} {c t : Nat} {f : TrapFrame}
    (he : State.installed smp s e = some (c, t, f)) :
    c < smp ∧ t < s.kernel.taskCount ∧ (∃ p, (s.core c).pc = .picked p t) ∧
      (s.core c).current = some t ∧ f = (s.kernel.cpuDec t).ctx := by
  obtain ⟨_, hc, ⟨p, hp⟩, hf⟩ := installed_cases he
  obtain ⟨hcur, hlt⟩ := h.task_of_picked hc hp
  refine ⟨hc, hlt, ⟨p, hp⟩, hcur, ?_⟩
  simpa [Kernel.switchContextEl, h.cpuInfo t hlt] using hf.symm

/-- What a step does to the task and the frame of a core: between the store to
`current_thread` and the install nothing happens to the core, and the install
copies the saved context of the task stored there. -/
structure Switches (s : State) (e : Event) (s' : State) (c : Nat) : Prop where
  /-- A change of `current_thread` is followed by the install of that task. -/
  records : (s'.core c).current ≠ (s.core c).current →
    ∃ p t, (s'.core c).current = some t ∧ (s'.core c).pc = .picked p t
  waits : ∀ p t, (s.core c).pc = .picked p t → e ≠ .advance c → s'.core c = s.core c
  installs : ∀ p t, (s.core c).pc = .picked p t → e = .advance c →
    (s.core c).current = some t ∧ (s'.core c).current = some t ∧ (s'.core c).pc = .user ∧
      (s'.core c).frame = (s.kernel.cpuDec t).ctx
  /-- Only an install and `SAVE_REGS` write to the frame. -/
  framed : (s'.core c).frame ≠ (s.core c).frame →
    (e = .advance c ∧ ∃ p t, (s.core c).pc = .picked p t) ∨ e = .irq c (s'.core c).frame

/-- A core that stands still. -/
theorem Switches.still {e : Event} {s' : State} {c : Nat} (hc : s'.core c = s.core c)
    (he : e ≠ .advance c) : Switches s e s' c where
  records := fun h => absurd (congrArg Core.current hc) h
  waits := fun _ _ _ _ => hc
  installs := fun _ _ _ h => absurd h he
  framed := fun h => absurd (congrArg Core.frame hc) h

/-- A core at a place other than the install, which keeps its task and frame. -/
theorem Switches.plain {e : Event} {s' : State} {c : Nat}
    (hp : ∀ p t, (s.core c).pc ≠ .picked p t) (hcur : (s'.core c).current = (s.core c).current)
    (hf : (s'.core c).frame = (s.core c).frame) : Switches s e s' c where
  records := fun h => absurd hcur h
  waits := fun p t h => absurd h (hp p t)
  installs := fun p t h => absurd h (hp p t)
  framed := fun h => absurd hf h

/-- A step changes the core it is about and no other. -/
theorem did_core {e : Event} {s' : State} {d : Nat} (h : Did smp s e s') (hd : d ≠ e.core) :
    s'.core d = s.core d := by
  cases h <;> simp_all [Event.core]

theorem Settled.switches (h : Settled smp s) {e : Event} {s' : State} (hd : Did smp s e s') :
    ∀ d < smp, Switches s e s' d := by
  intro d hdm
  by_cases hde : d = e.core
  case neg => exact .still (did_core hd hde) (by rintro rfl; exact hde rfl)
  subst hde
  cases hd with
  | stay _ hi =>
    refine ⟨fun hn => absurd rfl hn, fun _ _ _ _ => rfl, ?_, fun hn => absurd rfl hn⟩
    -- a core about to install its task does not stand still
    intro p t hp he
    generalize hc : e.core = c at *
    subst he
    have ht := h.1.task_of_picked hdm hp
    simp [State.installed, hp, hdm, Kernel.switchContextEl, h.1.cpuInfo t ht.2] at hi
  | adopt c hc hp _ => exact absurd hp (h.2 c hc).1
  | finish c hc hp _ => exact absurd hp (h.2 c hc).2
  | save c t cpu frame hc hp ht hcpu =>
    have hpc := canTrap_user hp
    refine ⟨?_, ?_, ?_, ?_⟩ <;> simp [Event.core, hpc]
  | tick c t hc hp _ | goOn c t hc hp _ | renew c t hc hp _ _ | enter c t hc hp _ _ =>
    exact .plain (by simp [Event.core, hp]) (by simp [Event.core]) (by simp [Event.core])
  | miss c t next hc hp hs =>
    obtain ⟨n, _, _, hscan⟩ := h.1.scan_finds hc hp
    simp [hs] at hscan
  | pick c t next hc hp hs _ =>
    rw [if_neg (scan_ne_sentinel h.1.bounded hs)]
    refine ⟨?_, ?_, ?_, ?_⟩ <;> simp [Event.core, hp]
  | install c prev t f hc hp hf _ =>
    have ht := h.1.task_of_picked hc hp
    have hctx : (s.kernel.cpuDec t).ctx = f := by
      simpa [Kernel.switchContextEl, h.1.cpuInfo t ht.2] using hf
    refine ⟨?_, ?_, ?_, ?_⟩ <;> simp [Event.core, hp, ht.1, hctx]

/-- Scheduler mutual exclusion over every interleaving of timer ticks: no two
cores share a task, exactly the current tasks are running, and whatever happens
next, a core that recorded another task gets the saved context of that task. -/
theorem tick_schedule_exclusive (smp : Nat) (s₀ : State) (hs : Started smp s₀)
    (es : List Event) :
    ∃ s, Lib.run (State.step smp) s₀ es = some s ∧
      (∀ c < smp, ∃ t < s.kernel.taskCount, (s.core c).current = some t) ∧
      (∀ c < smp, ∀ d < smp, (s.core c).current = (s.core d).current → c = d) ∧
      (∀ t < s.kernel.taskCount, (s.kernel.taskList t).state = .running ↔
        ∃ c < smp, (s.core c).current = some t) ∧
      ∀ e, ∃ s', State.step smp s e = some s' ∧ ∀ c < smp, Switches s e s' c := by
  obtain ⟨s, hrun, hset⟩ := run_settled (Started.settled hs) es
  have hi := hset.1
  have hr := hset.2
  have howned : ∀ c < smp, ∃ t < s.kernel.taskCount, (s.core c).current = some t :=
    fun c hc => hi.owned c hc (hr c hc).1
  refine ⟨s, hrun, howned, ?_, ?_, ?_⟩
  · intro c hc d hd he
    obtain ⟨t, _, ht⟩ := howned c hc
    exact hi.exclusive c hc d hd t trivial ht (he ▸ ht)
  · intro t ht
    constructor
    · exact hi.covered t ht
    · rintro ⟨c, hc, hcur⟩
      exact hi.held c hc t trivial (hr c hc) hcur
  · intro e
    obtain ⟨s', he, _⟩ := hset.step e
    exact ⟨s', he, hset.switches (step_cases he)⟩

/-- The two tasks that `main_entry` creates, on one core. -/
def mainTasks : List (Word × Word) :=
  [(0x80000000, 0x80004000), (0x90000000, 0x90004000)]

def threeTasks : List (Word × Word) :=
  [(0x80000000, 0x80004000), (0x90000000, 0x90004000), (0xa0000000, 0xa0004000)]

/-- A frame pushed while the core is in the wait loop of `main_entry`. -/
def waitFrame : TrapFrame := TrapFrame.zero.setSpsr spsrEl1El1h

/-- A slice on core `c` and the critical section of `_schedule` at the end of it. -/
def sliceOn (c : Nat) (frame : TrapFrame) : List Event :=
  (List.replicate sysTaskTick [.irq c frame, .advance c, .advance c]).flatten ++ [.advance c]

/-- Two cores, both between the critical section and the install: core 0 took
task 2 and core 1 the task that core 0 left, whose saved context it gets. -/
theorem tick_schedule_exclusive_main :
    Started 2 (started 2 threeTasks) ∧
      ∃ s s', Lib.run (State.step 2) (started 2 threeTasks)
          (sliceOn 0 waitFrame ++ sliceOn 1 (waitFrame.setElr 0x40000000)) = some s ∧
        (s.core 0).pc = .picked 0 2 ∧ (s.core 1).pc = .picked 1 0 ∧
        (s.kernel.taskList 1).state ≠ .running ∧
        State.step 2 s (.advance 1) = some s' ∧ (s'.core 1).current = some 0 ∧
        (s'.core 1).frame = waitFrame := by
  have hs : Started 2 (started 2 threeTasks) := started_started (by decide)
  obtain ⟨s, hrun, _, _, _, hstep⟩ := tick_schedule_exclusive 2 _ hs
    (sliceOn 0 waitFrame ++ sliceOn 1 (waitFrame.setElr 0x40000000))
  obtain ⟨s', hs', hsw⟩ := hstep (.advance 1)
  have hval : (Lib.run (State.step 2) (started 2 threeTasks)
      (sliceOn 0 waitFrame ++ sliceOn 1 (waitFrame.setElr 0x40000000))).map (fun s =>
        ((s.core 0).pc, (s.core 1).pc, (s.kernel.taskList 1).state, (s.kernel.cpuDec 0).ctx)) =
      some (.picked 0 2, .picked 1 0, .waiting, waitFrame) := by decide +kernel
  simp only [hrun, Option.map_some, Option.some.injEq, Prod.mk.injEq] at hval
  obtain ⟨h0, h1, ht, hctx⟩ := hval
  obtain ⟨_, hcur, _, hframe⟩ := (hsw 1 (by decide)).installs 1 0 h1 rfl
  exact ⟨hs, s, s', hrun, h0, h1, by simp [ht], hs', hcur, hframe.trans hctx⟩

end Dmos.Proofs.Exclusion
