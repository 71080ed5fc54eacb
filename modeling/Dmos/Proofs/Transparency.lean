import Dmos.Proofs.Contexts

namespace Dmos.Proofs.Transparency
open Lib Hyper SysReg SwitchCode Handlers Contexts

section Memory

variable (l : Layout)

theorem toNat_frame {i : Nat} (hi : i < 34) :
    (slot (l.stackTop - 272) i).toNat = l.stackTop.toNat - 272 + 8 * i := by
  have h := l.stack_fits
  have hsub : (l.stackTop - 272).toNat = l.stackTop.toNat - 272 := by
    rw [BitVec.toNat_sub_of_le]
    · rfl
    · rw [BitVec.le_def]
      exact h
  have hlt := l.stackTop.isLt
  rw [toNat_slot (by omega), hsub]

theorem toNat_sysregs {t i : Nat} (ht : t < maxTasks) (hi : i < cpuSysregsSize) :
    (slot (l.sysregsAt t) i).toNat = l.cpuSysregs.toNat + 8 * (cpuSysregsSize * t + i) := by
  have h := l.sysregs_fits
  simp only [maxTasks, cpuSysregsSize] at *
  rw [Layout.sysregsAt, slot_slot]
  exact toNat_slot (by simp only [cpuSysregsSize]; omega)

/-- The trap frame is apart from the saved system registers. -/
theorem sysregs_ne_frame {t i j : Nat} (ht : t < maxTasks) (hi : i < cpuSysregsSize) (hj : j < 34) :
    slot (l.sysregsAt t) i ≠ slot (l.stackTop - 272) j := by
  intro h
  have h1 := toNat_sysregs l ht hi
  have h2 := toNat_frame l hj
  have hs := l.stack_fits
  have ha := l.apart
  rw [h, h2] at h1
  simp only [maxTasks, cpuSysregsSize] at *
  omega

/-- The saved system registers of different tasks are apart. -/
theorem sysregs_ne_sysregs {t u i j : Nat} (ht : t < maxTasks) (hu : u < maxTasks) (htu : t ≠ u)
    (hi : i < cpuSysregsSize) (hj : j < cpuSysregsSize) :
    slot (l.sysregsAt t) i ≠ slot (l.sysregsAt u) j := by
  intro h
  have h1 := toNat_sysregs l ht hi
  have h2 := toNat_sysregs l hu hj
  rw [h, h2] at h1
  simp only [cpuSysregsSize] at *
  omega

/-- The processor when the handler is called. -/
def entered (p : Pe SysReg) (t : Trap) (a : Word) : Pe SysReg :=
  callWith ((takeException p t.guest).execAll saveRegsEl2) (t.unknowns 0) a saveSysregs

/-- The processor after the exception return, from the frame the handler left. -/
def left (p : Pe SysReg) (t : Trap) (a : Word) (f : TrapFrame) : Pe SysReg :=
  (callWith (writeFrame p f) (t.unknowns 1) a restoreSysregs).execAll restoreRegsEl2

section Enter

variable {l : Layout} {p : Pe SysReg} {c : Nat} (hsp : p.sp = l.stackTop) (hc : c < maxTasks)
  (t : Trap)

theorem callWith_sp (p : Pe SysReg) (u : Fin 31 → Word) (a : Word) {code : List (Instr SysReg)}
    (h : ∀ i ∈ code, i.movesSp = false) : (callWith p u a code).sp = p.sp := by
  rw [callWith, Pe.execAll_sp _ h, Pe.setX]

theorem entered_mem (p : Pe SysReg) (t : Trap) (a : Word) : (entered p t a).mem =
    memcpy ((takeException p t.guest).execAll saveRegsEl2).mem a 25
      (fun i => (takeException p t.guest).sys (savedRegs.getD i vbarEl1)) := by
  rw [entered, callWith, saveSysregs_mem]
  simp only [Pe.setX, Function.update_self, saveRegs_sys]

theorem entered_sp (p : Pe SysReg) (t : Trap) (a : Word) : (entered p t a).sp = p.sp - 272 := by
  rw [entered, callWith_sp _ _ _ (by decide), saveRegs_sp]
  rfl

include hsp hc

/-- The handler finds the guest's registers in the frame. -/
theorem entered_frame :
    readFrame (entered p t (l.sysregsAt c)) = frameOf (takeException p t.guest) := by
  funext i
  have hfit : (l.stackTop - 272).toNat + 8 * 34 ≤ 2 ^ 64 := by
    have h0 := toNat_frame l (i := 0) (by omega)
    rw [slot_zero] at h0
    have hs := l.stack_fits
    have hlt := l.stackTop.isLt
    omega
  rw [readFrame, entered_sp, hsp, entered_mem,
    memcpy_frame _ _ (fun j hj => (sysregs_ne_frame l hc (by simp [cpuSysregsSize]; omega) i.isLt).symm),
    saveRegs_mem]
  rw [show (takeException p t.guest).sp = l.stackTop from hsp, filled_memcpy _ _ hfit i i.isLt]
  congr 1
  exact Fin.ext (Nat.mod_eq_of_lt i.isLt)

omit hsp in
theorem entered_el1 {r : SysReg} (hg : guestReg r = true) :
    (entered p t (l.sysregsAt c)).mem (slot (l.sysregsAt c) (savedRegs.idxOf r)) =
      t.guest.el1 r := by
  obtain ⟨hi, hr⟩ := savedRegs_idxOf hg
  have hfit : (l.sysregsAt c).toNat + 8 * 25 ≤ 2 ^ 64 := by
    have h0 := toNat_sysregs l (i := 0) hc (by decide)
    rw [slot_zero] at h0
    have hs := l.sysregs_fits
    simp only [maxTasks, cpuSysregsSize] at *
    omega
  rw [entered_mem, filled_memcpy _ _ hfit _ hi, hr]
  cases r <;> first
    | exact absurd hg (by decide)
    | rfl

/-- The saved registers of the other tasks are left alone. -/
theorem entered_other {u i : Nat} (hu : u < maxTasks) (huc : u ≠ c) (hi : i < cpuSysregsSize) :
    (entered p t (l.sysregsAt c)).mem (slot (l.sysregsAt u) i) =
      p.mem (slot (l.sysregsAt u) i) := by
  rw [entered_mem, memcpy_frame _ _ (fun j hj =>
    sysregs_ne_sysregs l hu hc huc hi (by simp only [cpuSysregsSize]; omega)), saveRegs_mem]
  rw [show (takeException p t.guest).sp = l.stackTop from hsp,
    memcpy_frame _ _ (fun j hj => sysregs_ne_frame l hu hi hj)]
  rfl

end Enter

section Leave

variable {l : Layout} {p : Pe SysReg} {c : Nat} (hsp : p.sp = l.stackTop - 272) (hc : c < maxTasks)
  (t : Trap) (f : TrapFrame)

theorem left_mem (p : Pe SysReg) (t : Trap) (a : Word) (f : TrapFrame) :
    (left p t a f).mem = memcpy p.mem p.sp 34 (fun i => f (Fin.ofNat 34 i)) := by
  rw [left, Pe.execAll_mem _ (by decide), callWith, Pe.execAll_mem _ (by decide)]
  simp only [Pe.setX, writeFrame]

theorem left_sp (p : Pe SysReg) (t : Trap) (a : Word) (f : TrapFrame) :
    (left p t a f).sp = p.sp + 272 := by
  rw [left, restoreRegs_sp, callWith_sp _ _ _ (by decide), writeFrame]

include hsp hc

omit hc in
/-- Memory at the restore code: the frame that the handler left. -/
theorem restored_frame (i : Fin 34) (a : Word) :
    (callWith (writeFrame p f) (t.unknowns 1) a restoreSysregs).mem
      (slot (callWith (writeFrame p f) (t.unknowns 1) a restoreSysregs).sp i) = f i := by
  have hfit : p.sp.toNat + 8 * 34 ≤ 2 ^ 64 := by
    have h0 := toNat_frame l (i := 0) (by omega)
    rw [slot_zero] at h0
    have hs := l.stack_fits
    have hlt := l.stackTop.isLt
    rw [hsp]
    omega
  rw [callWith_sp _ _ _ (by decide), callWith, Pe.execAll_mem _ (by decide)]
  simp only [Pe.setX, writeFrame]
  rw [filled_memcpy _ _ hfit i i.isLt]
  congr 1
  exact Fin.ext (Nat.mod_eq_of_lt i.isLt)

omit hc in
theorem left_other {u i : Nat} (hu : u < maxTasks) (hi : i < cpuSysregsSize) (a : Word) :
    (left p t a f).mem (slot (l.sysregsAt u) i) = p.mem (slot (l.sysregsAt u) i) := by
  rw [left_mem, hsp, memcpy_frame _ _ (fun j hj => sysregs_ne_frame l hu hi hj)]

/-- The exception return loads the frame and the system registers at `a`. -/
theorem left_resumes {e : Context} (hf : Agrees f e)
    (hel1 : ∀ r, guestReg r = true →
      p.mem (slot (l.sysregsAt c) (savedRegs.idxOf r)) = e.el1 r) :
    Resumes (left p t (l.sysregsAt c) f) e where
  x := fun i => by
    rw [left, restoreRegs_x, ← hf.x i]
    exact restored_frame hsp t f ⟨i, by omega⟩ _
  elr := by
    rw [left, restoreRegs_elr, ← hf.elr]
    exact restored_frame hsp t f 32 _
  spsr := by
    rw [left, restoreRegs_spsr, ← hf.spsr]
    exact restored_frame hsp t f 33 _
  el1 := fun r hr => by
    have hne : ∀ i ∈ restoreRegsEl2, i.writesSys ≠ some r := by
      have h1 : r ≠ elrEl2 := fun h => by rw [h] at hr; cases hr
      have h2 : r ≠ spsrEl2 := fun h => by rw [h] at hr; cases hr
      simp [restoreRegsEl2, Instr.writesSys, h1.symm, h2.symm]
    obtain ⟨hi, -⟩ := savedRegs_idxOf hr
    rw [left, Pe.execAll_sys _ hne, callWith, restoreSysregs_sys _ hr]
    simp only [Pe.setX, Function.update_self, writeFrame]
    rw [hsp, memcpy_frame _ _ (fun j hj =>
      sysregs_ne_frame l hc (by simp only [cpuSysregsSize]; omega) hj)]
    exact hel1 r hr

end Leave

end Memory

/-- The tasks that do not run keep in memory what they expect to be resumed with. -/
structure Inv (l : Layout) (guests : List Word) (log : List (Nat × Trap)) (m : Machine)
    (cur : Nat) : Prop where
  sole : Sole guests.length m.host.kernel cur
  current : m.host.current = some cur
  sp : m.pe.sp = l.stackTop
  ctx : ∀ t < guests.length, t ≠ cur →
    Agrees (m.host.kernel.cpuDec t).ctx (expected guests log t)
  el1 : ∀ t < guests.length, t ≠ cur → ∀ r, guestReg r = true →
    m.pe.mem (slot (l.sysregsAt t) (savedRegs.idxOf r)) = (expected guests log t).el1 r

theorem takeException_agrees (p : Pe SysReg) (g : Guest) :
    Agrees (frameOf (takeException p g)) ⟨g.x, g.pc, g.pstate, g.el1⟩ where
  x := fun i => by simp [TrapFrame.r, frameOf, takeException]
  elr := rfl
  spsr := rfl

theorem sysReg_eq {l : Layout} {h : Host} {n cur : Nat} (hk : Sole n h.kernel cur)
    (hc : h.current = some cur) : h.sysReg l = some (l.sysregsAt cur) := by
  have hlt := hk.current_lt
  simp [Host.sysReg, hc, hk.cpuInfo cur hlt, hk.sysReg cur hlt]

variable {l : Layout} (smp : Nat) {guests : List Word}

theorem trap_eq {m : Machine} {t : Trap} {h' : Host} {f' : TrapFrame} {a a' : Word}
    (hs : { m.host with gic := t.gic, dev := t.dev }.sysReg l = some a)
    (he : handle smp t.cause { m.host with gic := t.gic, dev := t.dev }
      (readFrame (entered m.pe t a)) = some (h', f'))
    (hs' : h'.sysReg l = some a') :
    m.trap l smp t = some ⟨left (entered m.pe t a) t a' f', h'⟩ := by
  rw [entered] at he
  simp only [Machine.trap, hs, he, hs', Option.bind_eq_bind, Option.bind_some]
  rfl

/-- One trap: it is handled, whoever runs next finds what it expects, and so
will everybody else. -/
theorem trap_step {log : List (Nat × Trap)} {m : Machine} {cur : Nat}
    (hi : Inv l guests log m cur) {t : Trap} (hh : Handled t.cause) :
    ∃ m' cur', m.trap l smp t = some m' ∧ Inv l guests (log ++ [(cur, t)]) m' cur' ∧
      Resumes m'.pe (expected guests (log ++ [(cur, t)]) cur') := by
  have hb := hi.sole.bound
  have hcur := hi.sole.current_lt
  let p := entered m.pe t (l.sysregsAt cur)
  have hpsp : p.sp = l.stackTop - 272 := by rw [entered_sp, hi.sp]
  have hframe : readFrame p = frameOf (takeException m.pe t.guest) :=
    entered_frame hi.sp (by omega) t
  have hf : Agrees (readFrame p) ⟨t.guest.x, t.guest.pc, t.guest.pstate, t.guest.el1⟩ := by
    rw [hframe]
    exact takeException_agrees m.pe t.guest
  obtain ⟨h', f', cur', he, ho⟩ := handle_spec (h := { m.host with gic := t.gic, dev := t.dev })
    hh hi.sole hi.current (readFrame p)
  have hcur' := ho.sole.current_lt
  have htrap := trap_eq smp (sysReg_eq (h := { m.host with gic := t.gic, dev := t.dev }) hi.sole
    hi.current) he (sysReg_eq (l := l) ho.sole ho.current)
  have hother : ∀ u < guests.length, u ≠ cur →
      Agrees (h'.kernel.cpuDec u).ctx (expected guests (log ++ [(cur, t)]) u) := by
    intro u hu huc
    rw [expected_other guests log t huc, ho.saved]
    simpa [huc] using hi.ctx u hu huc
  have hel1 : ∀ u < guests.length, ∀ r, guestReg r = true →
      p.mem (slot (l.sysregsAt u) (savedRegs.idxOf r)) =
        (expected guests (log ++ [(cur, t)]) u).el1 r := by
    intro u hu r hr
    obtain ⟨hidx, -⟩ := savedRegs_idxOf hr
    by_cases huc : u = cur
    · rw [huc, expected_self]
      exact entered_el1 (by omega) t hr
    · rw [expected_other guests log t huc, entered_other hi.sp (by omega) t (by omega) huc
        (by simp only [cpuSysregsSize]; omega)]
      exact hi.el1 u hu huc r hr
  have hemul := emulateFrame_agrees (t := t) hh hf
  -- the frame left behind is that of the task that runs next, the saved one is not stale
  have hnext : Agrees f' (expected guests (log ++ [(cur, t)]) cur') := by
    rcases ho.frame with ⟨hcc, hfe⟩ | ⟨hcc, _, hfe⟩
    · rw [hcc, expected_self, hfe]
      exact hemul
    · rw [hfe, ← ho.saved]
      exact hother cur' hcur' hcc
  have hctx : ∀ u < guests.length, u ≠ cur' →
      Agrees (h'.kernel.cpuDec u).ctx (expected guests (log ++ [(cur, t)]) u) := by
    intro u hu hu'
    by_cases huc : u = cur
    · rcases ho.frame with ⟨hcc, _⟩ | ⟨_, hef, _⟩
      · exact absurd (huc.trans hcc.symm) hu'
      · rw [huc, expected_self, ho.saved, Kernel.setCtx_ctx, if_pos rfl]
        exact hef ▸ hemul
    · exact hother u hu huc
  refine ⟨_, cur', htrap, ⟨ho.sole, ho.current, ?_, hctx, ?_⟩, ?_⟩
  · rw [left_sp, hpsp, BitVec.sub_add_cancel]
  · intro u hu _ r hr
    obtain ⟨hidx, -⟩ := savedRegs_idxOf hr
    rw [left_other hpsp t f' (by omega) (by simp only [cpuSysregsSize]; omega)]
    exact hel1 u hu r hr
  · exact left_resumes hpsp (by omega) t f' hnext (hel1 cur' hcur')

/-- The frame that `craete_vm_task` leaves in a context from `.bss`. -/
def vmFrame (entry : Word) : TrapFrame :=
  ((TrapFrame.zero.setElr entry).setSpsr spsrEl2ValueIrq).setR 0 0x70000000

theorem vmFrame_agrees (entry : Word) : Agrees (vmFrame entry) (initialContext entry) where
  x := fun i => by
    by_cases h : i = 0
    · simp [h, vmFrame, initialContext, TrapFrame.setR, TrapFrame.r]
    · have h0 : i.val ≠ 0 := fun hv => h (Fin.ext hv)
      simp only [vmFrame, TrapFrame.setR, TrapFrame.setSpsr, TrapFrame.setElr, update_r,
        initialContext, h, ↓reduceIte]
      have h32 : i.val ≠ 32 := by omega
      have h33 : i.val ≠ 33 := by omega
      simp [h0, h32, h33, TrapFrame.r, TrapFrame.zero]
  elr := by simp [vmFrame, initialContext, TrapFrame.setR, TrapFrame.setSpsr, TrapFrame.setElr,
    TrapFrame.elr]
  spsr := by simp [vmFrame, initialContext, TrapFrame.setR, TrapFrame.setSpsr, TrapFrame.spsr]

/-- The task table and the saved system registers after `craete_vm_task` ran for
these guests. -/
structure Made (l : Layout) (guests : List Word) (k : Kernel) (mem : WordMemory) : Prop where
  count : k.taskCount = guests.length
  id : ∀ t < guests.length, (k.taskList t).id = t
  state : ∀ t < guests.length, (k.taskList t).state = .waiting
  cpuInfo : ∀ t < guests.length, (k.taskList t).cpuInfo = some t
  cpu : ∀ t < guests.length, k.cpuDec t = ⟨vmFrame (guests.getD t 0), some t⟩
  bss : ∀ t, guests.length ≤ t → k.cpuDec t = ⟨TrapFrame.zero, none⟩
  sysregs : ∀ t < maxTasks, ∀ i < cpuSysregsSize,
    mem (slot (l.sysregsAt t) i) = if i = 20 ∧ t < guests.length then 0x30C50830 else 0

theorem made_nil (l : Layout) : Made l [] Kernel.bss.scheduleInit (fun _ => 0) := by
  refine ⟨rfl, ?_, ?_, ?_, ?_, fun _ _ => rfl, by simp⟩ <;>
  · intro t ht
    cases ht

theorem made_snoc {k : Kernel} {mem : WordMemory} (hm : Made l guests k mem) (d : Word)
    (hlt : guests.length < maxTasks) :
    Made l (guests ++ [d]) (craeteVmTask l (k, mem) d).1 (craeteVmTask l (k, mem) d).2 := by
  have hn : ¬ guests.length ≥ maxTasks := by omega
  have hcpu : k.cpuDec guests.length = ⟨TrapFrame.zero, none⟩ := hm.bss _ (Nat.le_refl _)
  simp only [craeteVmTask, hm.count, if_neg hn]
  refine ⟨by simp [Kernel.modTask, Kernel.modCpu, hm.count], ?_, ?_, ?_, ?_, ?_, ?_⟩
  · intro t ht
    by_cases h : t = guests.length
    · simp [h, Kernel.setCounter, Kernel.modTask, Kernel.modCpu]
    · simp only [List.length_append, List.length_cons, List.length_nil] at ht
      simpa [h, Kernel.modTask, Kernel.modCpu] using hm.id t (by omega)
  · intro t ht
    by_cases h : t = guests.length
    · simp [h, Kernel.setCounter, Kernel.modTask, Kernel.modCpu]
    · simp only [List.length_append, List.length_cons, List.length_nil] at ht
      simpa [h, Kernel.modTask, Kernel.modCpu] using hm.state t (by omega)
  · intro t ht
    by_cases h : t = guests.length
    · simp [h, Kernel.setCounter, Kernel.modTask, Kernel.modCpu]
    · simp only [List.length_append, List.length_cons, List.length_nil] at ht
      simpa [h, Kernel.modTask, Kernel.modCpu] using hm.cpuInfo t (by omega)
  · intro t ht
    by_cases h : t = guests.length
    · simp [h, Kernel.modTask, Kernel.modCpu, hcpu, vmFrame]
    · simp only [List.length_append, List.length_cons, List.length_nil] at ht
      have hlt' : t < guests.length := by omega
      simpa [h, Kernel.modTask, Kernel.modCpu, List.getElem?_append, hlt'] using hm.cpu t hlt'
  · intro t ht
    simp only [List.length_append, List.length_cons, List.length_nil] at ht
    have h : t ≠ guests.length := by omega
    simpa [h, Kernel.modTask, Kernel.modCpu] using hm.bss t (by omega)
  · intro t ht i hi
    rw [Function.update_apply]
    by_cases h : t = guests.length
    · by_cases h20 : i = 20
      · simp [h, h20]
      · have hne : slot (l.sysregsAt t) i ≠ slot (l.sysregsAt guests.length) 20 := by
          intro he
          have h1 := toNat_sysregs l ht hi
          have h2 := toNat_sysregs l hlt (i := 20) (by decide)
          rw [he, h2, h] at h1
          omega
        rw [if_neg hne, hm.sysregs t ht i hi]
        simp [h20]
    · rw [if_neg (sysregs_ne_sysregs l ht hlt h hi (by decide)), hm.sysregs t ht i hi]
      have hiff : t < guests.length ↔ t < (guests ++ [d]).length := by
        simp only [List.length_append, List.length_cons, List.length_nil]
        omega
      simp only [hiff]

theorem made_guests (l : Layout) (guests : List Word) (hlt : guests.length ≤ maxTasks) :
    Made l guests (guests.foldl (craeteVmTask l) (Kernel.bss.scheduleInit, fun _ => 0)).1
      (guests.foldl (craeteVmTask l) (Kernel.bss.scheduleInit, fun _ => 0)).2 := by
  induction guests using List.reverseRecOn with
  | nil => exact made_nil l
  | append_singleton ds d ih =>
    simp only [List.length_append, List.length_cons, List.length_nil] at hlt
    rw [List.foldl_append]
    exact made_snoc (ih (by omega)) d (by omega)

/-- The first guest runs, and nobody has trapped. -/
theorem boot_inv (l : Layout) (guests : List Word) (h0 : guests ≠ [])
    (hlt : guests.length ≤ maxTasks) (sys : SysReg → Word) (g : Gic) (dev : Device) :
    Inv l guests [] (boot l guests sys g dev) 0 := by
  have hm := made_guests l guests hlt
  have hpos : 0 < guests.length := List.length_pos_of_ne_nil h0
  refine ⟨⟨hm.count, hlt, hpos, ?_, ?_, ?_, ?_⟩, rfl, rfl, ?_, ?_⟩
  · simpa [boot, scheduleInitLocal] using hm.id
  · simpa [boot, scheduleInitLocal] using hm.cpuInfo
  · intro t ht
    by_cases h : t = 0
    · simp [boot, scheduleInitLocal, h]
    · simp only [boot, scheduleInitLocal, Kernel.setState_state, h, ↓reduceIte, hm.state t ht]
      simp
  · intro t ht
    simp only [boot, scheduleInitLocal, Kernel.setState_cpuDec, hm.cpu t ht]
  · intro t ht _
    have hcpu : ((boot l guests sys g dev).host.kernel.cpuDec t).ctx = vmFrame (guests.getD t 0) := by
      simp only [boot, scheduleInitLocal, Kernel.setState_cpuDec, hm.cpu t ht]
    rw [hcpu]
    exact vmFrame_agrees _
  · intro t ht _ r hr
    obtain ⟨hidx, hreg⟩ := savedRegs_idxOf hr
    have hmem : (boot l guests sys g dev).pe.mem =
        (guests.foldl (craeteVmTask l) (Kernel.bss.scheduleInit, fun _ => 0)).2 := rfl
    rw [hmem, hm.sysregs t (by omega) _ (by simp only [cpuSysregsSize]; omega)]
    have h20 : savedRegs.idxOf r = 20 ↔ r = spsrEl1 := by
      cases r <;> decide
    simp [h20, ht, expected, lastTrap, initialContext]

/-- A run of handled traps: it goes through, and the invariant holds at its end. -/
theorem run_inv {log : List (Nat × Trap)} {m : Machine} {cur : Nat} (ts : List Trap)
    (hh : ∀ t ∈ ts, Handled t.cause) (hi : Inv l guests log m cur) :
    ∃ m' cur', run (Machine.trap l smp) m ts = some m' ∧
      Inv l guests (log ++ traps l smp m ts) m' cur' ∧
      (ts ≠ [] → Resumes m'.pe (expected guests (log ++ traps l smp m ts) cur')) := by
  induction ts generalizing log m cur with
  | nil => exact ⟨m, cur, rfl, by simpa [traps, outputs] using hi, fun h => absurd rfl h⟩
  | cons t ts ih =>
    obtain ⟨m₁, c₁, hs, hi₁, hr₁⟩ := trap_step smp hi (hh t (by simp))
    obtain ⟨m', cur', hrun, hi', hr'⟩ := ih (fun u hu => hh u (by simp [hu])) hi₁
    have htraps : traps l smp m (t :: ts) = (cur, t) :: traps l smp m₁ ts := by
      simp [traps, outputs, hi.current, hs]
    have happ : log ++ traps l smp m (t :: ts) = log ++ [(cur, t)] ++ traps l smp m₁ ts := by
      rw [htraps, List.append_assoc, List.singleton_append]
    rw [happ]
    refine ⟨m', cur', by rw [run_cons, hs]; exact hrun, hi', fun _ => ?_⟩
    cases ts with
    | nil =>
      obtain rfl : m₁ = m' := Option.some.inj hrun
      obtain rfl : c₁ = cur' := Option.some.inj (hi₁.current.symm.trans hi'.current)
      simpa [traps, outputs] using hr₁
    | cons u us => exact hr' (by simp)

/-- Guests do not see each other. After any sequence of handled traps, the task
that the exception return resumes finds in `x0..x30`, the program counter, the
status and every EL1 register what it had at its own last trap, changed only by
the emulation of that trap, or its initial context. -/
theorem guest_context_transparent (l : Layout) (smp : Nat) (guests : List Word)
    (h0 : guests ≠ []) (hlt : guests.length ≤ maxTasks) (sys : SysReg → Word) (g : Gic)
    (dev : Device) (ts : List Trap) (hne : ts ≠ []) (hh : ∀ t ∈ ts, Handled t.cause) :
    ∃ m cur, run (Machine.trap l smp) (boot l guests sys g dev) ts = some m ∧
      m.host.current = some cur ∧
      Resumes m.pe (expected guests (traps l smp (boot l guests sys g dev) ts) cur) := by
  obtain ⟨m, cur, hrun, hi, hr⟩ := run_inv smp ts hh (boot_inv l guests h0 hlt sys g dev)
  exact ⟨m, cur, hrun, hi.current, hr hne⟩

/-- A stack and an array in the RAM of the board. -/
def ramLayout : Layout := ⟨0x40010000, 0x40020000, by decide, by decide, by decide⟩

def gicReset : Gic := ⟨fun _ => 0, fun _ => 0, fun _ => 0⟩

/-- A timer interrupt of a guest that has `v` in all its registers. -/
def timerTrap (v : Word) : Trap :=
  ⟨⟨fun _ => v, 0x40001000 + v, 0x3c5, fun _ => v⟩, .irq 30, gicReset, fun _ => 0, fun _ _ => 0⟩

def twoGuests : Machine :=
  boot ramLayout [0x40001000, 0x70200000] (fun _ => 0) gicReset (fun _ => 0)

/-- A slice of the first guest and one of the second. -/
def twoSlices : List Trap :=
  List.replicate sysTaskTick (timerTrap 8) ++ List.replicate sysTaskTick (timerTrap 4)

/-- The first guest is resumed after all the traps of the second as it was at its own last. -/
theorem guest_context_transparent_timer :
    (traps ramLayout 1 twoGuests twoSlices).map Prod.fst =
        List.replicate sysTaskTick 0 ++ List.replicate sysTaskTick 1 ∧
      ∃ m, run (Machine.trap ramLayout 1) twoGuests twoSlices = some m ∧
        m.host.current = some 0 ∧ (∀ i, m.pe.x i = 8) ∧ m.pe.sys elrEl2 = 0x40001008 ∧
        m.pe.sys ttbr0El1 = 8 := by
  have hhandled : ∀ t ∈ twoSlices, Handled t.cause := by
    intro t ht
    simp only [twoSlices, List.mem_append, List.mem_replicate] at ht
    rcases ht with ⟨-, rfl⟩ | ⟨-, rfl⟩ <;> simp [Handled, timerTrap] <;> decide
  obtain ⟨m, cur, hrun, hcur, hres⟩ := guest_context_transparent ramLayout 1 [0x40001000, 0x70200000]
    (by decide) (by decide) (fun _ => 0) gicReset (fun _ => 0) twoSlices (by decide) hhandled
  have hfirst : (run (Machine.trap ramLayout 1) twoGuests twoSlices).map (fun m => m.host.current) =
      some (some 0) := by decide +kernel
  have hrun' : run (Machine.trap ramLayout 1) twoGuests twoSlices = some m := hrun
  rw [hrun', Option.map_some, Option.some.injEq, hcur, Option.some.injEq] at hfirst
  subst hfirst
  have hexp : (∀ i, (expected [0x40001000, 0x70200000] (traps ramLayout 1 twoGuests twoSlices) 0).x i = 8) ∧
      (expected [0x40001000, 0x70200000] (traps ramLayout 1 twoGuests twoSlices) 0).elr = 0x40001008 ∧
      (expected [0x40001000, 0x70200000] (traps ramLayout 1 twoGuests twoSlices) 0).el1 ttbr0El1 = 8 := by
    decide +kernel
  obtain ⟨hx, helr, httbr⟩ := hexp
  exact ⟨by decide +kernel, m, hrun', hcur, fun i => (hres.x i).trans (hx i), hres.elr.trans helr,
    (hres.el1 ttbr0El1 rfl).trans httbr⟩

end Dmos.Proofs.Transparency
