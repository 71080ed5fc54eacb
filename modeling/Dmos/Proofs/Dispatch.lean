import Dmos.Exception
import Dmos.Vgic

namespace Dmos.Proofs.Dispatch

open Gic Exception

variable {F : Type}

/-- A dispatch stays in its table and calls only what is meant to be called; where
there is nothing to call it calls nothing. -/
structure InRange (size : Nat) (Defined : F → Prop) (actions : List (Action F)) : Prop where
  loads : ∀ i, .load i ∈ actions → i < size
  calls : ∀ f, .call f ∈ actions → ∃ h, f = some h ∧ Defined h

/-- The handler is installed for the vector. -/
def Installed (installs : List (Fin handlerNum × F)) (vector : Nat) (h : F) : Prop :=
  ∃ p ∈ installs, p.1.val = vector ∧ p.2 = h

/-- An entry of the vector table is null or was installed, and the entry of a vector
for which there was an install is not null. -/
theorem installs_entry (rest : Table F) (installs : List (Fin handlerNum × F)) {v : Nat}
    (hv : v < handlerNum) :
    (∀ h, irqInstalls rest installs v = some h → Installed installs v h) ∧
      ((∃ h, Installed installs v h) → ∃ h, irqInstalls rest installs v = some h) := by
  induction installs using List.reverseRecOn with
  | nil =>
    constructor
    · intro h he
      rw [irqInstalls, List.foldl_nil, gHandlerVec, if_pos hv] at he
      cases he
    · rintro ⟨h, p, hp, -⟩
      cases hp
  | append_singleton installs p ih =>
    have hstep : irqInstalls rest (installs ++ [p]) v =
        if v = p.1 then some p.2 else irqInstalls rest installs v := by
      rw [irqInstalls, List.foldl_append, List.foldl_cons, List.foldl_nil, irqInstall,
        Function.update_apply]
      rfl
    rw [hstep]
    by_cases hp : v = p.1
    · rw [if_pos hp]
      refine ⟨fun h he => ?_, fun _ => ⟨p.2, rfl⟩⟩
      exact ⟨p, by simp, hp.symm, Option.some.inj he⟩
    · rw [if_neg hp]
      constructor
      · intro h he
        obtain ⟨q, hq, hqv⟩ := ih.1 h he
        exact ⟨q, List.mem_append_left _ hq, hqv⟩
      · rintro ⟨h, q, hq, hqv, hqh⟩
        refine ih.2 ⟨h, q, ?_, hqv, hqh⟩
        rcases List.mem_append.mp hq with hq | hq
        · exact hq
        · obtain rfl := List.mem_singleton.mp hq
          exact absurd hqv.symm hp

/-- Both interrupt handlers read one entry and call it. -/
theorem irq_in_range_iff (rest : Table F) (installs : List (Fin handlerNum × F)) {v : Nat}
    {actions : List (Action F)} (hload : ∀ i, .load i ∈ actions ↔ i = v)
    (hcall : ∀ f, .call f ∈ actions ↔ f = irqInstalls rest installs v) :
    InRange handlerNum (Installed installs v) actions ↔ ∃ h, Installed installs v h := by
  constructor
  · intro h
    obtain ⟨f, -, hf⟩ := h.calls _ ((hcall _).mpr rfl)
    exact ⟨f, hf⟩
  · intro h
    have hv : v < handlerNum := by
      obtain ⟨_, p, -, rfl, -⟩ := h
      exact p.1.isLt
    obtain ⟨hsome, hinst⟩ := installs_entry rest installs hv
    constructor
    · intro i hi
      rw [(hload i).mp hi]
      exact hv
    · intro f hf
      obtain ⟨g, hg⟩ := hinst h
      exact ⟨g, ((hcall f).mp hf).trans hg, hsome g hg⟩

/-- The system calls that there are, by number. -/
def Defined (n : Word) (s : Syscall) : Prop :=
  (n = 0 ∧ s = .sysPutc) ∨ (n = 1 ∧ s = .sysGetc) ∨ (n = 255 ∧ s = .sysDebug)

theorem svc_in_range_iff (rest : Table Syscall) (ret : Syscall → TrapFrame → Word) {esr : BitVec 32}
    (hsvc : (esr >>> 26) &&& 0b111111 = 0x15) (ctx : TrapFrame) :
    InRange nrSyscall (Defined (ctx.r 8)) (handleSyncException (syscallTable rest) ret esr ctx).1 ↔
      ctx.r 8 = 0 ∨ ctx.r 8 = 1 ∨ ctx.r 8 = 255 := by
  have hacts : (handleSyncException (syscallTable rest) ret esr ctx).1 =
      [.saveCpuCtx ctx, .load (ctx.r 8).toNat, .call (syscallTable rest (ctx.r 8).toNat)] := by
    rw [handleSyncException, if_pos hsvc]
  rw [hacts]
  constructor
  · intro h
    obtain ⟨f, -, hf⟩ := h.calls (syscallTable rest (ctx.r 8).toNat) (by simp)
    rcases hf with ⟨hn, -⟩ | ⟨hn, -⟩ | ⟨hn, -⟩
    · exact .inl hn
    · exact .inr (.inl hn)
    · exact .inr (.inr hn)
  · intro h
    have hentry : (ctx.r 8).toNat < nrSyscall ∧
        ∃ s, syscallTable rest (ctx.r 8).toNat = some s ∧ Defined (ctx.r 8) s := by
      rcases h with hn | hn | hn
      · rw [hn]
        exact ⟨by decide, .sysPutc, rfl, .inl ⟨rfl, rfl⟩⟩
      · rw [hn]
        exact ⟨by decide, .sysGetc, rfl, .inr (.inl ⟨rfl, rfl⟩)⟩
      · rw [hn]
        exact ⟨by decide, .sysDebug, rfl, .inr (.inr ⟨rfl, rfl⟩)⟩
    obtain ⟨hlt, s, hs, hdef⟩ := hentry
    constructor
    · intro i hi
      obtain rfl : i = (ctx.r 8).toNat := by simpa using hi
      exact hlt
    · intro f hf
      obtain rfl : f = syscallTable rest (ctx.r 8).toNat := by simpa using hf
      exact ⟨s, hs, hdef⟩

/-- The three dispatchers stay in their tables and call what is there exactly when a
handler was installed for the interrupt, or the number is that of a system call. -/
theorem dispatch_in_range_iff (rest : Table F) (installs : List (Fin handlerNum × F))
    (ctx : TrapFrame) (iar : BitVec 32) (restSys : Table Syscall) (ret : Syscall → TrapFrame → Word)
    (esr : BitVec 32) (hsvc : (esr >>> 26) &&& 0b111111 = 0x15) :
    (InRange handlerNum (Installed installs (gicIarIrqnr iar).toNat)
        (handleIrqException (irqInstalls rest installs) ctx iar) ↔
      ∃ h, Installed installs (gicIarIrqnr iar).toNat h) ∧
    (InRange handlerNum (Installed installs (gicIarIrqnr iar).toNat)
        (handleIrqExceptionEl2 (irqInstalls rest installs) ctx iar) ↔
      ∃ h, Installed installs (gicIarIrqnr iar).toNat h) ∧
    (InRange nrSyscall (Defined (ctx.r 8))
        (handleSyncException (syscallTable restSys) ret esr ctx).1 ↔
      ctx.r 8 = 0 ∨ ctx.r 8 = 1 ∨ ctx.r 8 = 255) := by
  refine ⟨irq_in_range_iff rest installs ?_ ?_, irq_in_range_iff rest installs ?_ ?_,
    svc_in_range_iff restSys ret hsvc ctx⟩
  · simp [handleIrqException]
  · simp [handleIrqException]
  · simp [handleIrqExceptionEl2]
  · simp [handleIrqExceptionEl2]

/-- The installs of the hypervisor: `timer_init` and `vm_init`. -/
def hyperInstalls : List (Fin handlerNum × Vgic.Handler) :=
  [(⟨30, by decide⟩, .handleTimerInterrupt), (⟨27, by decide⟩, .vTimerHandler),
    (⟨33, by decide⟩, .fakeConsole)]

/-- They make the handler table that the hypervisor's model dispatches by. -/
theorem hyper_table (rest : Table Vgic.Handler) {v : BitVec 32} (hv : v.toNat < handlerNum) :
    irqInstalls rest hyperInstalls v.toNat = Vgic.gHandlerVec v := by
  have hne : ∀ w : BitVec 32, v = w ↔ v.toNat = w.toNat := fun w => BitVec.toNat_inj.symm
  simp only [irqInstalls, hyperInstalls, List.foldl_cons, List.foldl_nil, irqInstall, gHandlerVec,
    Vgic.gHandlerVec, Vgic.hvTimerVector, Vgic.pl011Int, Vgic.timerVector, hne, Function.update_apply,
    if_pos hv]
  by_cases h27 : v.toNat = 27
  · rw [h27]
    rfl
  · by_cases h33 : v.toNat = 33
    · rw [h33]
      rfl
    · by_cases h30 : v.toNat = 30
      · rw [h30]
        rfl
      · simp [h27, h33, h30]

/-- The virtual timer interrupt, and system call 255. -/
theorem dispatch_in_range_iff_timer :
    InRange handlerNum (Installed hyperInstalls 27)
        (handleIrqExceptionEl2 (irqInstalls (fun _ => none) hyperInstalls) (fun _ => 255) 27) ∧
      InRange nrSyscall (Defined 255)
        (handleSyncException (syscallTable (fun _ => none)) (fun _ _ => 0) 0x56000000 (fun _ => 255)).1 := by
  have h := dispatch_in_range_iff (fun _ => none) hyperInstalls (fun _ => 255) 27 (fun _ => none)
    (fun _ _ => 0) 0x56000000 (by decide)
  refine ⟨h.2.1.mpr ⟨.vTimerHandler, (⟨27, by decide⟩, .vTimerHandler), ?_, rfl, rfl⟩,
    h.2.2.mpr (.inr (.inr rfl))⟩
  simp [hyperInstalls]

/-- The spurious interrupt id is dispatched like any other. -/
theorem spurious_out_of_range :
    ¬ InRange handlerNum (Installed hyperInstalls 1023)
      (handleIrqException (irqInstalls (fun _ => none) hyperInstalls) (fun _ => 0) 0x3ff) := by
  intro h
  have hlt : 1023 < handlerNum := h.loads 1023 (by simp [handleIrqException, gicIarIrqnr])
  exact absurd hlt (by decide)

end Dmos.Proofs.Dispatch
