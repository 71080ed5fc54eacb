import Dmos.Proofs.Scan
import Dmos.Proofs.SwitchCode

namespace Dmos.Proofs.Handlers
open Hyper

/-- The task table of a machine with one core: the current task is the only
running one, and every task has its own context and its own system registers. -/
structure Sole (n : Nat) (k : Kernel) (cur : Nat) : Prop where
  count : k.taskCount = n
  bound : n ≤ maxTasks
  current_lt : cur < n
  id : ∀ t < n, (k.taskList t).id = t
  cpuInfo : ∀ t < n, (k.taskList t).cpuInfo = some t
  state : ∀ t < n, ((k.taskList t).state = .running ↔ t = cur)
  sysReg : ∀ t < n, (k.cpuDec t).sysReg = some t

variable {n cur smp : Nat} {k : Kernel} {h : Host}

theorem Sole.setCtx (hk : Sole n k cur) (i : Nat) (f : TrapFrame) : Sole n (k.setCtx i f) cur where
  count := hk.count
  bound := hk.bound
  current_lt := hk.current_lt
  id := hk.id
  cpuInfo := hk.cpuInfo
  state := hk.state
  sysReg := by simpa using hk.sysReg

theorem Sole.setCounter (hk : Sole n k cur) (i v : Nat) : Sole n (k.setCounter i v) cur where
  count := hk.count
  bound := hk.bound
  current_lt := hk.current_lt
  id := by simpa using hk.id
  cpuInfo := by simpa using hk.cpuInfo
  state := by simpa using hk.state
  sysReg := hk.sysReg

/-- Handing the core over to a waiting task. -/
theorem Sole.switch (hk : Sole n k cur) {next : Nat} (hn : next < n) :
    Sole n ((k.setState cur .waiting).setState next .running) next where
  count := hk.count
  bound := hk.bound
  current_lt := hn
  id := by simpa using hk.id
  cpuInfo := by simpa using hk.cpuInfo
  state := by
    intro t ht
    simp only [Kernel.setState_state]
    by_cases h1 : t = next
    · simp [h1]
    · by_cases h2 : t = cur
      · simp [h2]
      · simp [h1, h2, hk.state t ht]
  sysReg := hk.sysReg

/-- What a handler leaves behind: the frame `e` of the same task, or, when `e` is
what the old task's context was saved as, the saved frame of another task. -/
structure Outcome (n : Nat) (cpuDec : Nat → Cpu) (cur : Nat) (f e : TrapFrame) (h : Host)
    (f' : TrapFrame) (cur' : Nat) : Prop where
  sole : Sole n h.kernel cur'
  current : h.current = some cur'
  saved : h.kernel.cpuDec = cpuDec
  frame : (cur' = cur ∧ f' = e) ∨ (cur' ≠ cur ∧ e = f ∧ f' = (cpuDec cur').ctx)

theorem Outcome.stay {f e : TrapFrame} (hk : Sole n h.kernel cur) (hc : h.current = some cur) :
    Outcome n h.kernel.cpuDec cur f e h e cur :=
  ⟨hk, hc, rfl, .inl ⟨rfl, rfl⟩⟩

theorem Outcome.setGic {cpuDec : Nat → Cpu} {f e f' : TrapFrame} {cur' : Nat}
    (o : Outcome n cpuDec cur f e h f' cur') (g : Gic) :
    Outcome n cpuDec cur f e { h with gic := g } f' cur' :=
  ⟨o.sole, o.current, o.saved, o.frame⟩

/-- With one core the search fails only for want of another task, so the loop
never leaves a running task behind in `next_task_id`. -/
theorem schedule_spec (hk : Sole n h.kernel cur) (hc : h.current = some cur) (f : TrapFrame) :
    ∃ h' f' cur', h.schedule smp cur f = some (h', f') ∧
      Outcome n h.kernel.cpuDec cur f f h' f' cur' := by
  have hcur := hk.current_lt
  have hcount := hk.count
  unfold Host.schedule
  by_cases hsmp : h.kernel.taskCount = smp
  · exact ⟨h, f, cur, by rw [if_pos hsmp], .stay hk hc⟩
  rw [if_neg hsmp]
  by_cases hone : n = 1
  · have hscan : h.kernel.scan cur = (2 ^ 32 - 1, false) := by
      simp [Kernel.scan, hcount, hone, Kernel.scanFrom]
    have hcs : h.kernel.criticalSection cur = some (h.kernel, none, 2 ^ 32 - 1) := by
      simp [Kernel.criticalSection, hk.id cur hcur, hscan]
    refine ⟨h, f, cur, ?_, .stay hk hc⟩
    simp [hcs]
  · obtain ⟨t, ht, hne⟩ : ∃ t < n, t ≠ cur := by
      by_cases h0 : cur = 0
      · exact ⟨1, by omega, by omega⟩
      · exact ⟨0, by omega, by omega⟩
    have hb := hk.bound
    obtain ⟨next, hnext, hwait, hscan⟩ := Scan.scan_waiting (hcount ▸ hcur)
      (hcount ▸ hb) (hcount ▸ ht) hne (fun hr => hne ((hk.state t ht).mp hr))
    rw [hcount] at hnext
    have hnc : next ≠ cur := fun he => hwait ((hk.state next hnext).mpr he)
    have hlt : cur < maxTasks := by omega
    have hm1 : next ≠ 2 ^ 32 - 1 := by
      simp only [maxTasks] at hb
      omega
    have hcs : h.kernel.criticalSection cur = some
        ((h.kernel.setState cur .waiting).setState next .running, some next, next) := by
      simp [Kernel.criticalSection, hk.id cur hcur, hscan, hlt]
    have hs := hk.switch hnext
    refine ⟨⟨(h.kernel.setState cur .waiting).setState next .running, some next, h.gic, h.dev⟩,
      (h.kernel.cpuDec next).ctx, next, ?_, hs, rfl, rfl, .inr ⟨hnc, rfl, rfl⟩⟩
    simp only [hcs, Option.bind_eq_bind, Option.bind_some, Option.some_or, if_neg hm1]
    rw [Kernel.switchContextEl, hs.cpuInfo next hnext]
    rfl

theorem timerTickSchedule_spec (hk : Sole n h.kernel cur) (hc : h.current = some cur)
    (f : TrapFrame) :
    ∃ h' f' cur', h.timerTickSchedule smp f = some (h', f') ∧
      Outcome n h.kernel.cpuDec cur f f h' f' cur' := by
  have hdec : Sole n (h.kernel.decCounter cur) cur := hk.setCounter cur _
  unfold Host.timerTickSchedule
  simp only [hc, Option.bind_eq_bind, Option.bind_some]
  split
  · exact ⟨_, f, cur, rfl, hdec, rfl, rfl, .inl ⟨rfl, rfl⟩⟩
  · exact schedule_spec (hdec.setCounter cur sysTaskTick) rfl f

theorem saveCpuCtx_eq (hk : Sole n h.kernel cur) (hc : h.current = some cur) (f : TrapFrame) :
    h.saveCpuCtx f = some { h with kernel := h.kernel.setCtx cur f } := by
  simp [Host.saveCpuCtx, hc, Kernel.saveCpuCtx, hk.cpuInfo cur hk.current_lt]

/-- The class of a synchronous exception. -/
def exceptionClass (esr : BitVec 32) : BitVec 32 := (esr >>> 26) &&& 0x3f#32

/-- The causes that have a handler: the installed interrupts, and WFI, HVC, SMC
and data aborts. -/
def Handled : Cause → Prop
  | .irq iar => Gic.gicIarIrqnr iar = Vgic.hvTimerVector ∨ Gic.gicIarIrqnr iar = Vgic.pl011Int ∨
      Gic.gicIarIrqnr iar = Vgic.timerVector
  | .sync esr _ _ => exceptionClass esr = 0x1 ∨ exceptionClass esr = 0x16 ∨
      exceptionClass esr = 0x17 ∨ exceptionClass esr = 0x24

/-- What the emulation of a trap makes of the frame. -/
def emulateFrame (c : Cause) (gic : Gic) (dev : Device) (f : TrapFrame) : TrapFrame :=
  match c with
  | .irq _ => f
  | .sync esr hpfar far =>
    if exceptionClass esr = 0x1 ∨ exceptionClass esr = 0x17 then advancePc esr f
    else if exceptionClass esr = 0x24 then
      advancePc esr (dataAbortHandler esr ((far &&& 0xfff) ||| (hpfar <<< 8)) f gic dev).1
    else f

theorem handleIrq_spec {iar : BitVec 32} (hh : Handled (.irq iar)) (hk : Sole n h.kernel cur)
    (hc : h.current = some cur) (f : TrapFrame) :
    ∃ h' f' cur', h.handleIrqExceptionEl2 smp iar f = some (h', f') ∧
      Outcome n (h.kernel.setCtx cur f).cpuDec cur f f h' f' cur' := by
  have hsole := hk.setCtx cur f
  have hne : Vgic.pl011Int ≠ Vgic.hvTimerVector := by decide
  have hne1 : Vgic.timerVector ≠ Vgic.hvTimerVector := by decide
  have hne2 : Vgic.timerVector ≠ Vgic.pl011Int := by decide
  unfold Host.handleIrqExceptionEl2
  simp only [saveCpuCtx_eq hk hc, Option.bind_eq_bind, Option.bind_some]
  rcases hh with hv | hv | hv <;> rw [hv]
  · exact ⟨_, f, cur, rfl, hsole, hc, rfl, .inl ⟨rfl, rfl⟩⟩
  · simp only [Vgic.gHandlerVec, hne, ↓reduceIte]
    exact ⟨_, f, cur, rfl, hsole, hc, rfl, .inl ⟨rfl, rfl⟩⟩
  · simp only [Vgic.gHandlerVec, hne1, hne2, ↓reduceIte]
    obtain ⟨h', f', cur', he, ho⟩ := timerTickSchedule_spec
      (h := { h with kernel := h.kernel.setCtx cur f }) hsole hc f
    exact ⟨_, f', cur', by rw [he]; rfl, ho.setGic _⟩

theorem handleSync_spec {esr : BitVec 32} {hpfar far : Word} (hh : Handled (.sync esr hpfar far))
    (hk : Sole n h.kernel cur) (hc : h.current = some cur) (f : TrapFrame) :
    ∃ h' f', h.handleSyncExceptionEl2 esr hpfar far f = some (h', f') ∧
      Outcome n (h.kernel.setCtx cur f).cpuDec cur f
        (emulateFrame (.sync esr hpfar far) h.gic h.dev f) h' f' cur := by
  have hsole := hk.setCtx cur f
  unfold Host.handleSyncExceptionEl2 emulateFrame
  simp only [Handled, exceptionClass] at hh ⊢
  simp only [saveCpuCtx_eq hk hc, Option.bind_eq_bind, Option.bind_some]
  rcases hh with he | he | he | he <;> simp only [he] <;>
    exact ⟨_, _, rfl, hsole, hc, rfl, .inl ⟨rfl, rfl⟩⟩

theorem handle_spec {c : Cause} (hh : Handled c) (hk : Sole n h.kernel cur)
    (hc : h.current = some cur) (f : TrapFrame) :
    ∃ h' f' cur', handle smp c h f = some (h', f') ∧
      Outcome n (h.kernel.setCtx cur f).cpuDec cur f (emulateFrame c h.gic h.dev f) h' f' cur' := by
  cases c with
  | irq iar => exact handleIrq_spec hh hk hc f
  | sync esr hpfar far =>
    obtain ⟨h', f', he, ho⟩ := handleSync_spec hh hk hc f
    exact ⟨h', f', cur, he, ho⟩

end Dmos.Proofs.Handlers
