import Dmos.Proofs.TaskFrames
import Dmos.Proofs.Exclusion

namespace Dmos.Proofs.TaskContexts
open Lib El1 Exception TaskFrames Boot Steps Exclusion

/-- The frame that the code interrupted by a trap is to be resumed with: a system
call changes `x0` to its result, and nothing else changes anything. -/
def outcome (img : Image) (t : Trap) : TrapFrame :=
  match t.cause with
  | .sync esr =>
    if (esr >>> 26) &&& 0b111111 = 0x15 then
      match syscallTable img.afterSyscalls (t.user.x 8).toNat with
      | some func => (frameOf t.user).setR 0 (sysRet t.input func)
      | none => frameOf t.user
    else frameOf t.user
  | _ => frameOf t.user

/-- What `create_task` gives task `t`. -/
def initial (tasks : List (Word × Word)) (t : Nat) : TrapFrame :=
  initialContext (tasks.getD t (0, 0)).1 (tasks.getD t (0, 0)).2

/-- The context a task should be resumed with, by its own traps alone. -/
def expected (img : Image) (tasks : List (Word × Word)) (log : List (Nat × Trap)) (t : Nat) :
    TrapFrame :=
  log.foldl (fun f e => if e.1 = t then outcome img e.2 else f) (initial tasks t)

/-- The trap that an event is, with the task it interrupts. -/
def logged (smp : Nat) (m : Machine) : Event → Option (Nat × Trap)
  | .trap c t => if c < smp && m.canTrap c t then (m.os.core c).current.map (fun u => (u, t)) else none
  | .advance _ _ => none

/-- The traps of a run, in the order in which the cores took them. -/
def traps (img : Image) (smp : Nat) (m : Machine) (es : List Event) : List (Nat × Trap) :=
  outputs (Machine.step img smp) (logged smp) m es

/-- The trap has a handler: no null pointer is called. -/
def Handled (img : Image) : Event → Prop
  | .trap _ t =>
    match t.cause with
    | .sync esr => (esr >>> 26) &&& 0b111111 = 0x15 →
      (syscallTable img.afterSyscalls (t.user.x 8).toNat).isSome
    | .irq iar => (img.gHandlerVec (Gic.gicIarIrqnr iar).toNat).isSome
    | .invalid => True
  | .advance _ _ => True

/-- The end of the boot, with each core in the loop of `main_entry`. -/
def start {smp : Nat} (l : Layout smp) (tasks : List (Word × Word)) (x : Nat → Fin 31 → Word)
    (sys : Nat → SysReg → Word) (mem : WordMemory) : Machine where
  os := started smp tasks
  phase := fun _ => .out
  regs := fun c => ⟨x c, l.sp c, sys c⟩
  mem := mem
  console := []

section Log

variable (img : Image) (tasks : List (Word × Word)) (log : List (Nat × Trap)) (c : Nat) (t : Trap)

@[simp] theorem expected_nil : expected img tasks [] c = initial tasks c := rfl

theorem expected_self : expected img tasks (log ++ [(c, t)]) c = outcome img t := by
  simp [expected, List.foldl_append]

theorem expected_other {d : Nat} (h : d ≠ c) :
    expected img tasks (log ++ [(c, t)]) d = expected img tasks log d := by
  simp [expected, List.foldl_append, h.symm]

end Log

variable {smp : Nat} {l : Layout smp} {img : Image} {tasks : List (Word × Word)}
  {log : List (Nat × Trap)} {m m' : Machine}

/-- The way core `c` is on leads to the frame `f`. In `_schedule` after the lock
the frame on the stack is about to be overwritten. -/
def Pending (l : Layout smp) (m : Machine) (c : Nat) (f : TrapFrame) : Prop :=
  match m.phase c with
  | .out | .hung => True
  | .leaving => frameAt m.mem (base l c) = f
  | .svc func input => (frameAt m.mem (base l c)).setR 0 (sysRet input func) = f
  | .tick => (∃ p t, (m.os.core c).pc = .picked p t) ∨ frameAt m.mem (base l c) = f

/-- The tasks that no core runs, and those whose core is in the timer interrupt,
have their context in the table; the others have it on their core's stack. -/
structure Inv (l : Layout smp) (img : Image) (tasks : List (Word × Word))
    (log : List (Nat × Trap)) (m : Machine) : Prop where
  settled : Settled smp m.os
  quiet : ∀ c < smp, m.phase c ≠ .tick → (m.os.core c).pc = .user
  busy : ∀ c < smp, m.phase c = .tick → (m.os.core c).pc ≠ .user
  sp : ∀ c < smp, (m.regs c).sp = if m.phase c = .out then l.sp c else base l c
  pending : ∀ c < smp, ∀ t, (m.os.core c).current = some t → Pending l m c (expected img tasks log t)
  saved : ∀ t < m.os.kernel.taskCount, (∀ c < smp, (m.os.core c).current = some t → m.phase c = .tick) →
    (m.os.kernel.cpuDec t).ctx = expected img tasks log t

theorem Inv.current (h : Inv l img tasks log m) {c : Nat} (hc : c < smp) :
    ∃ u, (m.os.core c).current = some u := by
  obtain ⟨u, -, hu⟩ := h.settled.1.owned c hc (h.settled.2 c hc).1
  exact ⟨u, hu⟩

/-- No other core runs the task of core `c`. -/
theorem Inv.alone (h : Inv l img tasks log m) {c u : Nat} (hc : c < smp)
    (hu : (m.os.core c).current = some u) : ∀ d < smp, (m.os.core d).current = some u → d = c :=
  fun d hd hdu => h.settled.1.exclusive d hd c hc u trivial hdu hu

/-- A step of core `c` leaves the other cores alone. -/
structure Others (l : Layout smp) (c : Nat) (m m' : Machine) : Prop where
  core : ∀ d < smp, d ≠ c → m'.os.core d = m.os.core d
  phase : ∀ d < smp, d ≠ c → m'.phase d = m.phase d
  sp : ∀ d < smp, d ≠ c → (m'.regs d).sp = (m.regs d).sp
  frame : ∀ d < smp, d ≠ c → frameAt m'.mem (base l d) = frameAt m.mem (base l d)

theorem Others.pending {c d : Nat} (h : Others l c m m') (hd : d < smp) (hdc : d ≠ c)
    {f : TrapFrame} (hp : Pending l m d f) : Pending l m' d f := by
  unfold Pending at hp ⊢
  rw [h.phase d hd hdc, h.core d hd hdc, h.frame d hd hdc]
  exact hp

/-- The invariant after a step of core `c`, from what the step means for `c`, for
the saved contexts and for what the other cores' tasks expect. -/
theorem Inv.moved {log' : List (Nat × Trap)} {c : Nat} (h : Inv l img tasks log m)
    (ho : Others l c m m') (hs : Settled smp m'.os)
    (hexp : ∀ d < smp, d ≠ c → ∀ t, (m.os.core d).current = some t →
      expected img tasks log' t = expected img tasks log t)
    (hpc : m'.phase c = .tick ↔ (m'.os.core c).pc ≠ .user)
    (hsp : c < smp → (m'.regs c).sp = if m'.phase c = .out then l.sp c else base l c)
    (hpend : ∀ t, (m'.os.core c).current = some t → Pending l m' c (expected img tasks log' t))
    (hsaved : ∀ t < m'.os.kernel.taskCount,
      (∀ d < smp, (m'.os.core d).current = some t → m'.phase d = .tick) →
      (m'.os.kernel.cpuDec t).ctx = expected img tasks log' t) :
    Inv l img tasks log' m' := by
  refine ⟨hs, ?_, ?_, ?_, ?_, hsaved⟩
  · intro d hd hp
    by_cases hdc : d = c
    · rw [hdc] at hp ⊢
      exact Decidable.not_not.mp (fun hn => hp (hpc.mpr hn))
    · rw [ho.core d hd hdc]
      exact h.quiet d hd (ho.phase d hd hdc ▸ hp)
  · intro d hd hp
    by_cases hdc : d = c
    · rw [hdc] at hp ⊢
      exact hpc.mp hp
    · rw [ho.core d hd hdc]
      exact h.busy d hd (ho.phase d hd hdc ▸ hp)
  · intro d hd
    by_cases hdc : d = c
    · rw [hdc] at hd ⊢
      exact hsp hd
    · rw [ho.sp d hd hdc, ho.phase d hd hdc]
      exact h.sp d hd
  · intro d hd t ht
    by_cases hdc : d = c
    · rw [hdc] at ht ⊢
      exact hpend t ht
    · rw [ho.core d hd hdc] at ht
      rw [hexp d hd hdc t ht]
      exact ho.pending hd hdc (h.pending d hd t ht)

section Trap

variable {c u : Nat} {t : Trap}

theorem entered_mem (hc : c < smp) (h : Inv l img tasks log m) (hp : m.phase c = .out) :
    (m.entered c t).mem = memcpy m.mem (base l c) 34 (fun i => frameOf t.user (Fin.ofNat 34 i)) := by
  have hsp := h.sp c hc
  rw [if_pos hp] at hsp
  rw [Machine.entered, saveRegs_mem, base, ← hsp]
  rfl

theorem entered_sp (hc : c < smp) (h : Inv l img tasks log m) (hp : m.phase c = .out) :
    (m.entered c t).sp = base l c := by
  have hsp := h.sp c hc
  rw [if_pos hp] at hsp
  rw [Machine.entered, saveRegs_sp, base, ← hsp]
  rfl

/-- The handler finds the interrupted registers in the frame. -/
theorem entered_frame (hc : c < smp) (h : Inv l img tasks log m) (hp : m.phase c = .out) :
    frameAt (m.entered c t).mem (base l c) = frameOf t.user := by
  rw [entered_mem hc h hp]
  exact frameAt_memcpy l hc _ _

theorem entered_readFrame (hc : c < smp) (h : Inv l img tasks log m) (hp : m.phase c = .out) :
    readFrame (m.entered c t) = frameOf t.user := by
  rw [← entered_frame hc h hp, ← entered_sp hc h hp]
  rfl

theorem frameOf_r (w : User) (i : Fin 31) : (frameOf w).r i = w.x i := by
  simp [TrapFrame.r, frameOf]

/-- A trap of task `u` on core `c`, whichever way the handler goes on. -/
theorem Inv.trapped (h : Inv l img tasks log m) (hc : c < smp) (hp : m.phase c = .out)
    (hu : (m.os.core c).current = some u) {s : Smp.State} {ph : Phase} (hs : Settled smp s)
    (hcore : ∀ d, d ≠ c → s.core d = m.os.core d) (hcur : (s.core c).current = some u)
    (hcount : s.kernel.taskCount = m.os.kernel.taskCount)
    (hctx : ∀ t, t ≠ u → (s.kernel.cpuDec t).ctx = (m.os.kernel.cpuDec t).ctx)
    (hpc : ph = .tick ↔ (s.core c).pc ≠ .user) (hout : ph ≠ .out)
    (htick : ph = .tick → (s.kernel.cpuDec u).ctx = outcome img t)
    (hpend : Pending l (((m.setPe c (m.entered c t)).withOs s).setPhase c ph) c (outcome img t)) :
    Inv l img tasks (log ++ [(u, t)]) (((m.setPe c (m.entered c t)).withOs s).setPhase c ph) := by
  have hne : ∀ d < smp, d ≠ c → ∀ v, (m.os.core d).current = some v → v ≠ u := by
    rintro d hd hdc v hv rfl
    exact hdc (h.alone hc hu d hd hv)
  refine h.moved (c := c) ⟨fun d hd hdc => hcore d hdc, fun d hd hdc => by simp [hdc],
    fun d hd hdc => by simp [hdc], fun d hd hdc => ?_⟩ hs ?_ (by simpa using hpc) ?_ ?_ ?_
  · simp only [setPhase_mem, withOs_mem, setPe_mem, entered_mem hc h hp]
    exact frameAt_memcpy_other l hc hd hdc _ _
  · intro d hd hdc v hv
    exact expected_other img tasks log u t (hne d hd hdc v hv)
  · intro _
    simp [hout, entered_sp hc h hp]
  · intro v hv
    obtain rfl : u = v := Option.some.inj (hcur.symm.trans hv)
    rw [expected_self]
    exact hpend
  · intro v hv hall
    by_cases hvu : v = u
    · rw [hvu, expected_self]
      exact htick (by simpa using hall c hc (hvu ▸ hcur))
    · rw [expected_other img tasks log u t hvu]
      simp only [setPhase_os, withOs_os] at hv hall ⊢
      rw [hctx v hvu]
      refine h.saved v (hcount ▸ hv) (fun d hd hdv => ?_)
      by_cases hdc : d = c
      · rw [hdc, hu] at hdv
        exact absurd (Option.some.inj hdv).symm hvu
      · simpa [hdc] using hall d hd (by rw [hcore d hdc]; exact hdv)

theorem Inv.handleSync (h : Inv l img tasks log m) (hc : c < smp) (hp : m.phase c = .out)
    (hu : (m.os.core c).current = some u) {esr : BitVec 32} (he : t.cause = .sync esr)
    (hh : (esr >>> 26) &&& 0b111111 = 0x15 →
      (syscallTable img.afterSyscalls (t.user.x 8).toNat).isSome) :
    ∃ m', (m.setPe c (m.entered c t)).handleSync img c esr t.input (frameOf t.user) = some m' ∧
      Inv l img tasks (log ++ [(u, t)]) m' := by
  have huser := h.quiet c hc (by simp [hp])
  obtain ⟨v, hv, hcv⟩ := h.settled.1.owned c hc (by simp [huser])
  obtain rfl : u = v := Option.some.inj (hu.symm.trans hcv)
  let s := (m.os.withKernel (m.os.kernel.setCtx u (frameOf t.user))).setCore c
    { m.os.core c with current := some u, frame := frameOf t.user }
  have hs : Settled smp s := by
    refine ⟨h.settled.1.quiet (h.settled.2 c hc) (h.settled.2 c hc) hu.symm
      (by simp [LocalsAgree, huser]) (by simp [huser]) rfl (by simp) (by simp) (by simp), ?_⟩
    intro d hd
    by_cases hdc : d = c
    · simp [s, hdc, Ready, huser]
    · simpa [s, hdc] using h.settled.2 d hd
  have hspec := fun (ph : Phase) (hph : ph ≠ .tick) (hout : ph ≠ .out) =>
    h.trapped (t := t) (s := s) hc hp hu hs (fun d hd => by simp [s, hd])
      (by simp [s]) rfl (fun w hw => by simp [s, hw]) (by simp [hph, s, huser]) hout
      (fun hq => absurd hq hph)
  have hcpu := h.settled.1.cpuInfo u hv
  have hframe := entered_frame (t := t) hc h hp
  simp only [Machine.handleSync, setPe_os, hu, Kernel.saveCpuCtx, hcpu, Option.map_some,
    Option.bind_eq_bind, Option.bind_some]
  split
  · rename_i hec
    obtain ⟨func, hf⟩ := Option.isSome_iff_exists.mp (hh hec)
    rw [frameOf_r, hf]
    have hout : outcome img t = (frameOf t.user).setR 0 (sysRet t.input func) := by
      simp only [outcome, he, if_pos hec, hf]
    refine ⟨_, rfl, hspec (.svc func t.input) (by simp) (by simp) ?_⟩
    simp [Pending, hframe, hout]
  · rename_i hec
    have hout : outcome img t = frameOf t.user := by simp only [outcome, he, if_neg hec]
    split
    · refine ⟨_, rfl, hspec .leaving (by simp) (by simp) ?_⟩
      simp [Pending, hframe, hout]
    · refine ⟨_, rfl, hspec .hung (by simp) (by simp) ?_⟩
      simp [Pending]

theorem Inv.handleIrq (h : Inv l img tasks log m) (hc : c < smp) (hp : m.phase c = .out)
    (hu : (m.os.core c).current = some u) {iar : BitVec 32} (he : t.cause = .irq iar)
    (hcan : m.os.canTrap c (frameOf t.user) = true)
    (hh : (img.gHandlerVec (Gic.gicIarIrqnr iar).toNat).isSome) :
    ∃ m', (m.setPe c (m.entered c t)).handleIrq img c iar (frameOf t.user) = some m' ∧
      Inv l img tasks (log ++ [(u, t)]) m' := by
  have huser := h.quiet c hc (by simp [hp])
  obtain ⟨v, hv, hcv⟩ := h.settled.1.owned c hc (by simp [huser])
  obtain rfl : u = v := Option.some.inj (hu.symm.trans hcv)
  have hcpu := h.settled.1.cpuInfo u hv
  obtain ⟨s, hstep, hs⟩ := h.settled.step (.irq c (frameOf t.user))
  have hirq : m.os.irq c (frameOf t.user) = some s := by
    simpa only [Smp.State.step, if_pos hc] using hstep
  have hse : s = (m.os.withKernel (m.os.kernel.setCtx u (frameOf t.user))).setCore c
      { m.os.core c with pc := .trapped, frame := frameOf t.user } := by
    simpa [Smp.State.irq, hcan, hu, Kernel.saveCpuCtx, hcpu] using hirq.symm
  obtain ⟨⟨⟩, hvec⟩ := Option.isSome_iff_exists.mp hh
  simp only [Machine.handleIrq, setPe_os, hirq, hvec, Option.bind_eq_bind, Option.bind_some]
  have hout : outcome img t = frameOf t.user := by simp only [outcome, he]
  refine ⟨_, rfl, h.trapped hc hp hu hs ?_ ?_ ?_ ?_ ?_ (by simp) ?_ ?_⟩
  · intro d hd
    simp [hse, hd]
  · simpa [hse] using hu
  · rw [hse]; rfl
  · intro w hw
    simp [hse, hw]
  · simp [hse]
  · intro _
    simp [hse, hout]
  · simp only [Pending, setPhase_phase, ↓reduceIte]
    right
    rw [hout]
    exact entered_frame hc h hp

/-- A trap that is taken is logged, and is handled. -/
theorem Inv.trap (h : Inv l img tasks log m) (hc : c < smp) (hh : Handled img (.trap c t)) :
    ∃ m', m.trap img c t = some m' ∧
      Inv l img tasks (log ++ (logged smp m (.trap c t)).toList) m' := by
  rw [Machine.trap]
  split
  · rename_i hcan
    have hboth := hcan
    simp only [Machine.canTrap, Bool.and_eq_true, decide_eq_true_eq] at hboth
    obtain ⟨hp, hos⟩ := hboth
    obtain ⟨u, hcu⟩ := h.current hc
    have hlog : logged smp m (.trap c t) = some (u, t) := by simp [logged, hc, hcan, hcu]
    rw [hlog]
    dsimp only
    rw [entered_readFrame hc h hp] at hos ⊢
    unfold Machine.handle
    unfold Handled at hh
    cases he : t.cause with
    | sync esr => exact h.handleSync hc hp hcu he (by simpa only [he] using hh)
    | irq iar => exact h.handleIrq hc hp hcu he hos (by simpa only [he] using hh)
    | invalid =>
      have hout : outcome img t = frameOf t.user := by simp only [outcome, he]
      refine ⟨_, rfl, h.trapped hc hp hcu h.settled (fun _ _ => rfl) hcu rfl (fun _ _ => rfl)
        (by simp [canTrap_user hos]) (by simp) (by simp) ?_⟩
      simp [Pending, hout, entered_frame hc h hp]
  · rename_i hcan
    refine ⟨m, rfl, ?_⟩
    simpa [logged, hcan] using h

end Trap

section Advance

variable {c : Nat}

/-- What stays true of the saved contexts in a step that changes no
`current_thread` and no context, and takes no core out of the timer interrupt
whose context is not the saved one. -/
theorem Inv.saved_kept (h : Inv l img tasks log m) {s : Smp.State} {ph : Nat → Phase}
    (hcur : ∀ d, (s.core d).current = (m.os.core d).current)
    (hctx : ∀ t, (s.kernel.cpuDec t).ctx = (m.os.kernel.cpuDec t).ctx)
    (hcount : s.kernel.taskCount = m.os.kernel.taskCount)
    (hph : ∀ d, ph d = .tick → m.phase d = .tick) :
    ∀ t < s.kernel.taskCount, (∀ d < smp, (s.core d).current = some t → ph d = .tick) →
      (s.kernel.cpuDec t).ctx = expected img tasks log t := by
  intro t ht hall
  rw [hctx]
  exact h.saved t (hcount ▸ ht) (fun d hd hdt => hph d (hall d hd ((hcur d).trans hdt)))

/-- The system call writes its result over `r[0]` of the frame. -/
theorem Inv.svc (h : Inv l img tasks log m) (hc : c < smp) {func : Syscall} {input : BitVec 8}
    (hp : m.phase c = .svc func input) : Inv l img tasks log (m.svc c func input) := by
  have hsp : (m.regs c).sp = base l c := by simpa [hp] using h.sp c hc
  have huser := h.quiet c hc (by simp [hp])
  have hframe : readFrame (m.pe c) = frameAt m.mem (base l c) := by rw [← hsp]; rfl
  have hmem : (m.svc c func input).mem = memcpy m.mem (base l c) 34 (fun i =>
      ((frameAt m.mem (base l c)).setR 0 (sysRet input func)) (Fin.ofNat 34 i)) := by
    rw [← hframe, ← hsp]
    rfl
  refine h.moved (c := c) ⟨fun _ _ _ => rfl, fun d hd hdc => by simp [Machine.svc, hdc],
    fun d hd hdc => by simp [Machine.svc, hdc], fun d hd hdc => ?_⟩ h.settled
    (fun _ _ _ _ _ => rfl) ?_ ?_ ?_ ?_
  · rw [hmem]
    exact frameAt_memcpy_other l hc hd hdc _ _
  · simp [Machine.svc, huser]
  · intro _
    simpa [Machine.svc, writeFrame, Machine.pe] using hsp
  · intro t ht
    have hpend := h.pending c hc t ht
    simp only [Pending, hp] at hpend
    have hph : (m.svc c func input).phase c = .leaving := by simp [Machine.svc]
    simp only [Pending, hph]
    rw [hmem, frameAt_memcpy l hc, hpend]
  · refine h.saved_kept (fun _ => rfl) (fun _ => rfl) rfl (fun d hd => ?_)
    by_cases hdc : d = c
    · simp [Machine.svc, hdc] at hd
    · simpa [Machine.svc, hdc] using hd

/-- `RESTORE_REGS` gives the stack pointer back and changes no memory. -/
theorem Inv.leave (h : Inv l img tasks log m) (hc : c < smp) (hp : m.phase c = .leaving)
    (v : Fin 31 → Word) : Inv l img tasks log (m.leave c v) := by
  have hsp : (m.regs c).sp = base l c := by simpa [hp] using h.sp c hc
  have huser := h.quiet c hc (by simp [hp])
  have hph : (m.leave c v).phase c = .out := by simp [Machine.leave]
  have hmem : (m.leave c v).mem = m.mem := by
    simp only [Machine.leave, setPhase_mem, setPe_mem, restoreRegs_mem]
    rfl
  refine h.moved (c := c) ⟨fun _ _ _ => rfl, fun d hd hdc => by simp [Machine.leave, hdc],
    fun d hd hdc => by simp [Machine.leave, hdc], fun d hd hdc => by rw [hmem]⟩ h.settled
    (fun _ _ _ _ _ => rfl) ?_ ?_ ?_ ?_
  · rw [hph]
    simpa [Machine.leave] using huser
  · intro _
    rw [hph, if_pos rfl]
    simp only [Machine.leave, setPhase_regs, setPe_sp, ↓reduceIte, restoreRegs_sp, Machine.pe, hsp,
      base]
    exact BitVec.sub_add_cancel _ _
  · intro t _
    simp [Pending, hph]
  · refine h.saved_kept (fun _ => rfl) (fun _ => rfl) rfl (fun d hd => ?_)
    by_cases hdc : d = c
    · rw [hdc, hph] at hd
      cases hd
    · simpa [Machine.leave, hdc] using hd

/-- The end of a step in the timer interrupt. -/
def resume (m : Machine) (c : Nat) (s : Smp.State) : Machine :=
  if (s.core c).pc = .user then (m.withOs s).setPhase c .leaving else m.withOs s

@[simp] theorem resume_os (m : Machine) (c : Nat) (s : Smp.State) : (resume m c s).os = s := by
  unfold resume
  split <;> rfl

@[simp] theorem resume_mem (m : Machine) (c : Nat) (s : Smp.State) :
    (resume m c s).mem = m.mem := by
  unfold resume
  split <;> rfl

@[simp] theorem resume_regs (m : Machine) (c : Nat) (s : Smp.State) :
    (resume m c s).regs = m.regs := by
  unfold resume
  split <;> rfl

theorem resume_phase (m : Machine) (c : Nat) (s : Smp.State) (d : Nat) :
    (resume m c s).phase d = if d = c ∧ (s.core c).pc = .user then .leaving else m.phase d := by
  unfold resume
  split
  · rename_i hu
    by_cases hdc : d = c <;> simp [hdc, hu]
  · rename_i hu
    simp [hu]

/-- A step in the timer interrupt that leaves `current_thread` of the other cores
and all saved contexts alone. -/
theorem Inv.resume (h : Inv l img tasks log m) (hc : c < smp) (hp : m.phase c = .tick)
    {s : Smp.State} (hs : Settled smp s) (hcore : ∀ d, d ≠ c → s.core d = m.os.core d)
    (hctx : ∀ t, (s.kernel.cpuDec t).ctx = (m.os.kernel.cpuDec t).ctx)
    (hcount : s.kernel.taskCount = m.os.kernel.taskCount) {mem : WordMemory}
    (hmem : ∀ d < smp, d ≠ c → frameAt mem (base l d) = frameAt m.mem (base l d))
    (hpend : ∀ t, (s.core c).current = some t → (∃ q u, (s.core c).pc = .picked q u) ∨
      frameAt mem (base l c) = expected img tasks log t) :
    Inv l img tasks log (TaskContexts.resume { m with mem := mem } c s) := by
  have hsp : (m.regs c).sp = base l c := by simpa [hp] using h.sp c hc
  refine h.moved (c := c) ⟨fun d _ hdc => by simpa using hcore d hdc,
    fun d _ hdc => by simp [resume_phase, hdc], fun d _ _ => by simp,
    fun d hd hdc => by simpa using hmem d hd hdc⟩ (by simpa using hs) (fun _ _ _ _ _ => rfl)
    ?_ ?_ ?_ ?_
  · by_cases hu : (s.core c).pc = .user <;> simp [resume_phase, hu, hp]
  · intro _
    by_cases hu : (s.core c).pc = .user <;> simp [resume_phase, hu, hp, hsp]
  · intro t ht
    rw [resume_os] at ht
    by_cases hu : (s.core c).pc = .user
    · simpa [Pending, resume_phase, hu] using hpend t ht
    · simpa [Pending, resume_phase, hu, hp] using hpend t ht
  · intro t ht hall
    rw [resume_os] at ht hall ⊢
    rw [hctx]
    refine h.saved t (hcount ▸ ht) (fun d hd hdt => ?_)
    by_cases hdc : d = c
    · rw [hdc, hp]
    · simpa [resume_phase, hdc] using hall d hd (by rw [hcore d hdc]; exact hdt)

/-- A step of `timer_tick_schedule` and `_schedule`. -/
theorem Inv.tick (h : Inv l img tasks log m) (hc : c < smp) (hp : m.phase c = .tick) :
    ∃ m', m.tick smp c = some m' ∧ Inv l img tasks log m' := by
  obtain ⟨s, hstep, hs⟩ := h.settled.step (.advance c)
  have hbusy := h.busy c hc hp
  have hkeep : (∀ q u, (m.os.core c).pc ≠ .picked q u) → ∀ t, (m.os.core c).current = some t →
      frameAt m.mem (base l c) = expected img tasks log t := by
    intro hn t ht
    have hpend := h.pending c hc t ht
    simp only [Pending, hp] at hpend
    rcases hpend with ⟨q, u, hq⟩ | hf
    · exact absurd hq (hn q u)
    · exact hf
  have hnone : Smp.State.installed smp m.os (.advance c) = none →
      m.tick smp c = some (TaskContexts.resume { m with mem := m.mem } c s) := by
    intro hi
    simp only [Machine.tick, hstep, hi, Option.map_some]
    rfl
  have hquiet : Smp.State.installed smp m.os (.advance c) = none →
      (∀ d, d ≠ c → s.core d = m.os.core d) →
      (∀ t, (s.kernel.cpuDec t).ctx = (m.os.kernel.cpuDec t).ctx) →
      (∀ t, (s.core c).current = some t → (∃ q u, (s.core c).pc = .picked q u) ∨
        frameAt m.mem (base l c) = expected img tasks log t) →
      ∃ m', m.tick smp c = some m' ∧ Inv l img tasks log m' := by
    intro hi hcore hctx hpend
    exact ⟨_, hnone hi, h.resume hc hp hs hcore hctx (step_taskCount hstep) (fun _ _ _ => rfl) hpend⟩
  have hsame : (∀ q u, (m.os.core c).pc ≠ .picked q u) →
      Smp.State.installed smp m.os (.advance c) = none →
      (∀ d, d ≠ c → s.core d = m.os.core d) →
      (∀ t, (s.kernel.cpuDec t).ctx = (m.os.kernel.cpuDec t).ctx) →
      (s.core c).current = (m.os.core c).current →
      ∃ m', m.tick smp c = some m' ∧ Inv l img tasks log m' := by
    intro hn hi hcore hctx hcur
    exact hquiet hi hcore hctx (fun u hu => .inr (hkeep hn u (hcur.symm.trans hu)))
  cases step_cases hstep with
  | stay _ hi =>
    refine ⟨m, ?_, h⟩
    rw [hnone hi, TaskContexts.resume, if_neg hbusy]
    rfl
  | adopt _ _ hpc _ => exact absurd hpc (h.settled.2 c hc).1
  | finish _ _ hpc _ => exact absurd hpc (h.settled.2 c hc).2
  | tick _ t _ hpc ht =>
    exact hsame (by simp [hpc]) (by simp [Smp.State.installed, hpc]) (fun d hd => by simp [hd])
      (by simp) (by simp)
  | goOn _ t _ hpc hn =>
    exact hsame (by simp [hpc]) (by simp [Smp.State.installed, hpc]) (fun d hd => by simp [hd])
      (by simp) (by simp)
  | renew _ t _ hpc hn hq =>
    exact hsame (by simp [hpc]) (by simp [Smp.State.installed, hpc]) (fun d hd => by simp [hd])
      (by simp) (by simp)
  | enter _ t _ hpc hn hq =>
    exact hsame (by simp [hpc]) (by simp [Smp.State.installed, hpc]) (fun d hd => by simp [hd])
      (by simp) (by simp)
  | miss _ t next _ hpc hscan =>
    obtain ⟨n, _, _, hfound⟩ := h.settled.1.scan_finds hc hpc
    simp [hscan] at hfound
  | pick _ t next _ hpc hscan hm =>
    obtain ⟨n, hn, _, hfound⟩ := h.settled.1.scan_finds hc hpc
    obtain rfl : next = n := congrArg Prod.fst (hscan.symm.trans hfound)
    have hbound := h.settled.1.bounded
    have hsent : next ≠ 2 ^ 32 - 1 := by simp only [maxTasks] at hbound; omega
    refine hquiet (by simp [Smp.State.installed, hpc]) (fun d hd => by simp [hd]) (by simp) ?_
    intro u hu
    refine .inl ⟨t, next, ?_⟩
    rw [Smp.setCore_core, if_pos rfl]
    exact if_neg hsent
  | install _ prev t f _ hpc hf hi =>
    obtain ⟨_, ht, _, hcur, rfl⟩ := h.settled.1.installed hi
    -- the task was picked under the lock, so its context is the one in the table
    have hctx : (m.os.kernel.cpuDec t).ctx = expected img tasks log t := by
      refine h.saved t ht (fun d hd hdt => ?_)
      rw [h.alone hc hcur d hd hdt, hp]
    have hsp : (m.regs c).sp = base l c := by simpa [hp] using h.sp c hc
    refine ⟨TaskContexts.resume { m with mem := memcpy m.mem (base l c) 34 (fun i =>
      (m.os.kernel.cpuDec t).ctx (Fin.ofNat 34 i)) } c _, ?_, h.resume hc hp hs
      (fun d hd => by simp [hd]) (fun _ => rfl) rfl
      (fun d hd hdc => frameAt_memcpy_other l hc hd hdc _ _) ?_⟩
    · rw [Machine.tick, hstep, hi, ← hsp]
      simp [TaskContexts.resume, Machine.setPe, writeFrame, Machine.pe]
    · intro u hu
      have htu : t = u := Option.some.inj (hcur.symm.trans (by simpa using hu))
      right
      rw [frameAt_memcpy l hc, hctx, htu]

theorem Inv.advance (h : Inv l img tasks log m) (hc : c < smp) (v : Fin 31 → Word) :
    ∃ m', m.advance smp c v = some m' ∧ Inv l img tasks log m' := by
  unfold Machine.advance
  cases hp : m.phase c with
  | out =>
    -- the code outside the kernel is seen only when it traps
    have huser := h.quiet c hc (by simp [hp])
    refine ⟨m, ?_, h⟩
    simp only [Smp.State.step, if_pos hc, Smp.State.advance, huser, Option.map_some]
    rfl
  | tick => exact h.tick hc hp
  | svc func input => exact ⟨_, rfl, h.svc hc hp⟩
  | leaving => exact ⟨_, rfl, h.leave hc hp v⟩
  | hung => exact ⟨m, rfl, h⟩

end Advance

/-- One step: it does not fault, and the traps it takes are accounted for. -/
theorem Inv.step (h : Inv l img tasks log m) (e : Event) (hh : Handled img e) :
    ∃ m', m.step img smp e = some m' ∧ Inv l img tasks (log ++ (logged smp m e).toList) m' := by
  cases e with
  | trap c t =>
    simp only [Machine.step]
    split
    · rename_i hc
      exact h.trap hc hh
    · rename_i hc
      exact ⟨m, rfl, by simpa [logged, hc] using h⟩
  | advance c v =>
    simp only [Machine.step, logged, Option.toList_none, List.append_nil]
    split
    · rename_i hc
      exact h.advance hc v
    · exact ⟨m, rfl, h⟩

theorem traps_cons (e : Event) (es : List Event) (hs : m.step img smp e = some m') :
    traps img smp m (e :: es) = (logged smp m e).toList ++ traps img smp m' es := by
  simp only [traps, outputs, hs]
  cases logged smp m e <;> rfl

/-- Every run of handled traps goes through and keeps the invariant. -/
theorem Inv.run (h : Inv l img tasks log m) (es : List Event) (hh : ∀ e ∈ es, Handled img e) :
    ∃ m', Lib.run (Machine.step img smp) m es = some m' ∧
      Inv l img tasks (log ++ traps img smp m es) m' := by
  induction es generalizing m log with
  | nil => exact ⟨m, rfl, by simpa [traps, outputs] using h⟩
  | cons e es ih =>
    obtain ⟨m₁, hs, h₁⟩ := h.step e (hh e (by simp))
    obtain ⟨m', hrun, h'⟩ := ih h₁ (fun f hf => hh f (by simp [hf]))
    refine ⟨m', by rw [run_cons, hs]; exact hrun, ?_⟩
    rw [traps_cons e es hs, ← List.append_assoc]
    exact h'

/-- At the start each core runs the task of its number, and the others wait with
the context that `create_task` gave them. -/
theorem start_inv (l : Layout smp) (img : Image) (tasks : List (Word × Word))
    (hfit : smp ≤ min tasks.length maxTasks) (x : Nat → Fin 31 → Word)
    (sys : Nat → SysReg → Word) (mem : WordMemory) :
    Inv l img tasks [] (start l tasks x sys mem) := by
  have hlist := handoff_listed tasks
  obtain ⟨hcount, hdec, _⟩ := started_kernel smp tasks
  have hst : Started smp (started smp tasks) := started_started (by rw [hlist.count]; exact hfit)
  refine ⟨Started.settled hst, fun c hc _ => hst.idle c hc, by simp [start], by simp [start],
    by simp [start, Pending], ?_⟩
  intro t ht _
  have hlt : t < (Smp.handoff tasks).kernel.taskCount := hcount ▸ ht
  have hlen : t < tasks.length := by
    have := hlist.count
    omega
  have hget : tasks.getD t (0, 0) = tasks[t] := by simp [hlen]
  have hctx : ((start l tasks x sys mem).os.kernel.cpuDec t).ctx =
      ((Smp.handoff tasks).kernel.cpuDec t).ctx := congrArg (fun k => (k t).ctx) hdec
  rw [hctx, hlist.context t hlen hlt, expected_nil, initial, hget]

/-- Tasks do not see each other, and a system call changes `x0` alone. For any
number of cores with a task each, and any interleaving of interrupts, system calls and
other traps with the steps of the handlers, the machine does not fault, and the task that an
exception return resumes finds in `x0..x30`, its stack pointer, the program
counter and the status what it had at its own last trap, with the result of that
trap's system call in `x0`, or the context `create_task` gave it. No other core
runs that task, and the core's own stack is where it was. -/
theorem task_context_transparent (l : Layout smp) (img : Image) (tasks : List (Word × Word))
    (hfit : smp ≤ min tasks.length maxTasks) (x : Nat → Fin 31 → Word)
    (sys : Nat → SysReg → Word) (mem : WordMemory) (es : List Event)
    (hh : ∀ e ∈ es, Handled img e) :
    ∃ m, Lib.run (Machine.step img smp) (start l tasks x sys mem) es = some m ∧
      ∀ c < smp, m.phase c = .leaving → ∀ v, ∃ t m', (m.os.core c).current = some t ∧
        m.step img smp (.advance c v) = some m' ∧ m'.phase c = .out ∧
        Resumes (m'.regs c)
          (expected img tasks (traps img smp (start l tasks x sys mem) es) t) ∧
        (m'.regs c).sp = l.sp c ∧
        ∀ d < smp, (m'.os.core d).current = some t → d = c := by
  obtain ⟨m, hrun, h⟩ := (start_inv l img tasks hfit x sys mem).run es hh
  rw [List.nil_append] at h
  refine ⟨m, hrun, fun c hc hp v => ?_⟩
  obtain ⟨t, hcur⟩ := h.current hc
  have hsp : (m.regs c).sp = base l c := by simpa [hp] using h.sp c hc
  have hpend := h.pending c hc t hcur
  simp only [Pending, hp] at hpend
  have hph : (m.leave c v).phase c = .out := by simp [Machine.leave]
  have hregs : (m.leave c v).regs c =
      ⟨({ m.pe c with x := v }.execAll restoreRegs).x, ({ m.pe c with x := v }.execAll restoreRegs).sp,
        ({ m.pe c with x := v }.execAll restoreRegs).sys⟩ := by
    simp [Machine.leave, Machine.setPe]
  refine ⟨t, m.leave c v, hcur, ?_, hph, ?_, ?_, ?_⟩
  · simp only [Machine.step, if_pos hc, Machine.advance, hp]
  · rw [hregs, ← hpend, ← hsp]
    exact restoreRegs_resumes _
  · simpa [hph] using (h.leave hc hp v).sp c hc
  · exact h.alone hc hcur

/-- One core with its stack in the RAM of the board. -/
def oneCore : Layout 1 := ⟨fun _ => 0x40010000, by decide, fun _ _ _ _ _ => by omega⟩

/-- `svc` with `x8 = 0` and a character in `x0`. -/
def putcTrap : Trap :=
  ⟨⟨fun i => if i = 0 then 65 else 0, 0x80004000, 0x80000010, 0x5⟩, .sync 0x56000000, 0⟩

theorem task_context_transparent_putc :
    ∃ m, Lib.run (Machine.step ⟨fun _ => none, fun _ => none⟩ 1)
        (start oneCore mainTasks (fun _ _ => 0) (fun _ _ => 0) (fun _ => 0))
        [.trap 0 putcTrap, .advance 0 (fun _ => 0)] = some m ∧
      ∀ c < 1, m.phase c = .leaving → ∀ v, ∃ t m', (m.os.core c).current = some t ∧
        m.step ⟨fun _ => none, fun _ => none⟩ 1 (.advance c v) = some m' ∧ m'.phase c = .out ∧
        Resumes (m'.regs c) (expected ⟨fun _ => none, fun _ => none⟩ mainTasks
          (traps ⟨fun _ => none, fun _ => none⟩ 1
            (start oneCore mainTasks (fun _ _ => 0) (fun _ _ => 0) (fun _ => 0))
            [.trap 0 putcTrap, .advance 0 (fun _ => 0)]) t) ∧
        (m'.regs c).sp = oneCore.sp c ∧ ∀ d < 1, (m'.os.core d).current = some t → d = c :=
  task_context_transparent oneCore ⟨fun _ => none, fun _ => none⟩ mainTasks (by decide)
    (fun _ _ => 0) (fun _ _ => 0) (fun _ => 0) _ (by simp [Handled, putcTrap, syscallTable])

end Dmos.Proofs.TaskContexts
