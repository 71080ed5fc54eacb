import Dmos.Proofs.TaskContexts

namespace Dmos.Proofs.TaskOutput
open Lib El1 Exception TaskFrames Boot Steps Exclusion TaskContexts
open Console (Command)

/-- The system call that a trap is. -/
def callOf (img : Image) (t : Trap) : Option Syscall :=
  match t.cause with
  | .sync esr =>
    if (esr >>> 26) &&& 0b111111 = 0x15 then syscallTable img.afterSyscalls (t.user.x 8).toNat
    else none
  | _ => none

/-- What a trap asks to be printed. -/
def printOf (img : Image) (t : Trap) : Option Command :=
  (callOf img t).bind (sysOut (frameOf t.user))

/-- What task `u` asked to be printed, in order. -/
def asked (img : Image) (log : List (Nat × Trap)) (u : Nat) : List Command :=
  (log.filter (fun e => e.1 = u)).filterMap (fun e => printOf img e.2)

/-- The system call that a core is about to make. -/
def calling : Phase → Option Syscall
  | .svc func _ => some func
  | _ => none

/-- What the system call prints that core `c` is about to make. -/
def held (m : Machine) (c : Nat) : Option Command :=
  (calling (m.phase c)).bind (sysOut (readFrame (m.pe c)))

/-- What an event prints, with the task that it is from. -/
def emitted (smp : Nat) (m : Machine) : Event → Option (Nat × Command)
  | .trap _ _ => none
  | .advance c _ =>
    if c < smp then (held m c).bind fun p => (m.os.core c).current.map fun u => (u, p) else none

/-- The output of a run, each command with its task. -/
def output (img : Image) (smp : Nat) (m : Machine) (es : List Event) : List (Nat × Command) :=
  outputs (Machine.step img smp) (emitted smp) m es

/-- What was printed for task `u`. -/
def printed (outs : List (Nat × Command)) (u : Nat) : List Command :=
  (outs.filter (fun e => e.1 = u)).map Prod.snd

section Lists

variable {img : Image} {log : List (Nat × Trap)} {outs : List (Nat × Command)} {u v : Nat} {t : Trap}
  {p : Option Command}

theorem asked_self (img : Image) (log : List (Nat × Trap)) (u : Nat) (t : Trap) :
    asked img (log ++ [(u, t)]) u = asked img log u ++ (printOf img t).toList := by
  simp only [asked, List.filter_append, List.filterMap_append]
  cases h : printOf img t <;> simp [h]

theorem asked_other (h : v ≠ u) : asked img (log ++ [(u, t)]) v = asked img log v := by
  simp [asked, List.filter_append, h.symm]

theorem printed_self :
    printed (outs ++ (p.map fun q => (u, q)).toList) u = printed outs u ++ p.toList := by
  cases p <;> simp [printed, List.filter_append]

theorem printed_other (h : v ≠ u) :
    printed (outs ++ (p.map fun q => (u, q)).toList) v = printed outs v := by
  cases p <;> simp [printed, List.filter_append, h.symm]

end Lists

variable {smp : Nat} {l : Layout smp} {img : Image} {tasks : List (Word × Word)}
  {log : List (Nat × Trap)} {m m' : Machine} {c d : Nat}

/-! ### What a step does -/

theorem irq_core {os s : Smp.State} {f : TrapFrame} (h : os.irq c f = some s) :
    (∀ d, d ≠ c → s.core d = os.core d) ∧ (s.core c).current = (os.core c).current := by
  unfold Smp.State.irq at h
  split at h
  · simp only [Option.bind_eq_bind, Option.bind_eq_some_iff, Option.some.injEq] at h
    obtain ⟨curr, -, k, -, rfl⟩ := h
    exact ⟨fun d hd => by simp [hd], by simp⟩
  · cases h
    exact ⟨fun _ _ => rfl, rfl⟩

theorem callOf_sync {t : Trap} {esr : BitVec 32} (h : t.cause = .sync esr) :
    callOf img t = if (esr >>> 26) &&& 0b111111 = 0x15 then
      syscallTable img.afterSyscalls (t.user.x 8).toNat else none := by
  simp only [callOf, h]

/-- The handler goes into the system call that the trap is, and changes nothing else that the
console depends on. -/
theorem handle_shape {t : Trap} {ctx : TrapFrame} (hctx : ctx.r 8 = t.user.x 8)
    (h : m.handle img c t ctx = some m') :
    ∃ s ph, m' = (m.withOs s).setPhase c ph ∧ (∀ d, d ≠ c → s.core d = m.os.core d) ∧
      (s.core c).current = (m.os.core c).current ∧
      calling ph = callOf img t := by
  unfold Machine.handle at h
  cases hcause : t.cause with
  | sync esr =>
    simp only [hcause, Machine.handleSync, Option.bind_eq_bind, Option.bind_eq_some_iff] at h
    obtain ⟨curr, -, k, -, h⟩ := h
    by_cases hec : (esr >>> 26) &&& 0b111111 = 0x15
    · rw [if_pos hec, Option.bind_eq_some_iff] at h
      obtain ⟨func, hfunc, h⟩ := h
      rw [hctx] at hfunc
      refine ⟨_, .svc func t.input, (Option.some.inj h).symm, fun d hd => by simp [hd], by simp, ?_⟩
      rw [callOf_sync hcause, if_pos hec, hfunc]
      rfl
    · rw [if_neg hec] at h
      by_cases hsmc : (esr >>> 26) &&& 0b111111 = 0x17
      · rw [if_pos hsmc] at h
        refine ⟨_, .leaving, (Option.some.inj h).symm, fun d hd => by simp [hd], by simp, ?_⟩
        rw [callOf_sync hcause, if_neg hec]
        rfl
      · rw [if_neg hsmc] at h
        refine ⟨_, .hung, (Option.some.inj h).symm, fun d hd => by simp [hd], by simp, ?_⟩
        rw [callOf_sync hcause, if_neg hec]
        rfl
  | irq iar =>
    simp only [hcause, Machine.handleIrq, Option.bind_eq_bind, Option.bind_eq_some_iff] at h
    obtain ⟨s, hs, ⟨⟩, -, h⟩ := h
    obtain ⟨hother, hcur⟩ := irq_core hs
    exact ⟨s, .tick, (Option.some.inj h).symm, hother, hcur, by simp [callOf, calling, hcause]⟩
  | invalid =>
    simp only [hcause, Option.some.injEq] at h
    exact ⟨m.os, .leaving, h.symm, fun d hd => rfl, rfl, by simp [callOf, calling, hcause]⟩

/-- What core `c` leaves of what the other cores are about to print. -/
structure Quiet (l : Layout smp) (c : Nat) (m m' : Machine) : Prop where
  current : ∀ d < smp, d ≠ c → (m'.os.core d).current = (m.os.core d).current
  phase : ∀ d < smp, d ≠ c → m'.phase d = m.phase d
  frame : ∀ d < smp, d ≠ c → frameAt m'.mem (base l d) = frameAt m.mem (base l d)

theorem quiet_trap {t : Trap} (h : Inv l img tasks log m) (hc : c < smp) (hcan : m.canTrap c t = true)
    (hstep : m.trap img c t = some m') :
    Quiet l c m m' ∧ m'.console = m.console ∧ (m'.os.core c).current = (m.os.core c).current ∧
      frameAt m'.mem (base l c) = frameOf t.user ∧ calling (m'.phase c) = callOf img t := by
  have hp : m.phase c = .out := by
    simp only [Machine.canTrap, Bool.and_eq_true, decide_eq_true_eq] at hcan
    exact hcan.1
  rw [Machine.trap, if_pos hcan] at hstep
  simp only at hstep
  rw [entered_readFrame hc h hp] at hstep
  obtain ⟨s, ph, rfl, hother, hcur, hph⟩ := handle_shape (frameOf_r t.user 8) hstep
  refine ⟨⟨fun d _ hd => ?_, fun d _ hd => by simp [hd], fun d hd hdc => ?_⟩, rfl, hcur, ?_, ?_⟩
  · simpa using congrArg Smp.Core.current (hother d hd)
  · simp only [setPhase_mem, withOs_mem, setPe_mem, entered_mem hc h hp]
    exact frameAt_memcpy_other l hc hd hdc _ _
  · simpa using entered_frame hc h hp
  · simpa using hph

theorem quiet_tick (h : Inv l img tasks log m) (hc : c < smp) (hp : m.phase c = .tick)
    (hstep : m.tick smp c = some m') :
    Quiet l c m m' ∧ m'.console = m.console ∧ calling (m'.phase c) = none := by
  have hsp : (m.regs c).sp = base l c := by simpa [hp] using h.sp c hc
  simp only [Machine.tick, Option.map_eq_some_iff] at hstep
  obtain ⟨s, hs, hm⟩ := hstep
  have hcore := fun d (hd : d ≠ c) => congrArg Smp.Core.current (did_core (step_cases hs) hd)
  have hframe : ∀ f : TrapFrame, ∀ d < smp, d ≠ c →
      frameAt (m.setPe c (writeFrame (m.pe c) f)).mem (base l d) = frameAt m.mem (base l d) := by
    intro f d hd hdc
    have hbase : (m.setPe c (writeFrame (m.pe c) f)).mem =
        memcpy m.mem (base l c) 34 (fun i => f (Fin.ofNat 34 i)) := by
      rw [← hsp]
      rfl
    rw [hbase]
    exact frameAt_memcpy_other l hc hd hdc _ _
  obtain ⟨m₁, rfl, hcons, hph, hfr⟩ : ∃ m₁ : Machine,
      m' = (if (s.core c).pc = .user then (m₁.withOs s).setPhase c .leaving else m₁.withOs s) ∧
      m₁.console = m.console ∧ m₁.phase = m.phase ∧
      ∀ d < smp, d ≠ c → frameAt m₁.mem (base l d) = frameAt m.mem (base l d) := by
    cases hi : Smp.State.installed smp m.os (.advance c) with
    | none =>
      simp only [hi] at hm
      exact ⟨m, hm.symm, rfl, rfl, fun _ _ _ => rfl⟩
    | some p =>
      simp only [hi] at hm
      exact ⟨m.setPe c (writeFrame (m.pe c) p.2.2), hm.symm, rfl, rfl, hframe p.2.2⟩
  split
  · refine ⟨⟨fun d _ hdc => by simpa using hcore d hdc, fun d _ hdc => by simp [hdc, hph], hfr⟩, hcons, ?_⟩
    simp [calling]
  · refine ⟨⟨fun d _ hdc => by simpa using hcore d hdc, fun d _ hdc => by simp [hph], hfr⟩, hcons, ?_⟩
    simp [hph, hp, calling]

theorem quiet_leave (l : Layout smp) (m : Machine) (c : Nat) (v : Fin 31 → Word) :
    Quiet l c m (m.leave c v) ∧ calling ((m.leave c v).phase c) = none := by
  have hmem : (m.leave c v).mem = m.mem := by
    simp only [Machine.leave, setPhase_mem, setPe_mem, restoreRegs_mem]
    rfl
  refine ⟨⟨fun _ _ _ => rfl, fun d _ hdc => by simp [Machine.leave, hdc], fun d _ _ => by rw [hmem]⟩, ?_⟩
  simp [Machine.leave, calling]

/-- The call itself prints what it holds. -/
theorem quiet_svc (h : Inv l img tasks log m) (hc : c < smp) {func : Syscall} {input : BitVec 8}
    (hp : m.phase c = .svc func input) :
    Quiet l c m (m.svc c func input) ∧
      (m.svc c func input).console = m.console ++ (held m c).toList ∧
      calling ((m.svc c func input).phase c) = none := by
  have hsp : (m.regs c).sp = base l c := by simpa [hp] using h.sp c hc
  have hmem : (m.svc c func input).mem = memcpy m.mem (base l c) 34 (fun i =>
      ((readFrame (m.pe c)).setR 0 (sysRet input func)) (Fin.ofNat 34 i)) := by
    rw [← hsp]
    rfl
  have hheld : held m c = sysOut (readFrame (m.pe c)) func := by simp [held, hp, calling]
  refine ⟨⟨fun _ _ _ => rfl, fun d _ hdc => by simp [Machine.svc, hdc], fun d hd hdc => ?_⟩, ?_, ?_⟩
  · rw [hmem]
    exact frameAt_memcpy_other l hc hd hdc _ _
  · rw [hheld]
    rfl
  · simp [Machine.svc, calling]

/-! ### Output and requests -/

/-- The console holds what was printed. A task has been printed all it asked for, but for what
a call holds that is on its way on the task's core. -/
structure Printed (img : Image) (smp : Nat) (log : List (Nat × Trap)) (outs : List (Nat × Command))
    (m : Machine) : Prop where
  console : m.console = outs.map Prod.snd
  running : ∀ c < smp, ∀ u, (m.os.core c).current = some u →
    asked img log u = printed outs u ++ (held m c).toList
  waiting : ∀ u, (∀ c < smp, (m.os.core c).current ≠ some u) → asked img log u = printed outs u

theorem held_eq (h : Inv l img tasks log m) (hc : c < smp) :
    held m c = (calling (m.phase c)).bind (sysOut (frameAt m.mem (base l c))) := by
  by_cases hp : m.phase c = .out
  · simp [held, hp, calling]
  · have hsp : (m.regs c).sp = base l c := by simpa [hp] using h.sp c hc
    rw [held, ← hsp]
    rfl

theorem held_none (h : calling (m.phase c) = none) : held m c = none := by simp [held, h]

section Step

variable {outs : List (Nat × Command)}

theorem Quiet.held (hq : Quiet l c m m') (h : Inv l img tasks log m) {log' : List (Nat × Trap)}
    (h' : Inv l img tasks log' m') (hd : d < smp) (hdc : d ≠ c) :
    held m' d = TaskOutput.held m d := by
  rw [held_eq h' hd, held_eq h hd, hq.phase d hd hdc, hq.frame d hd hdc]

/-- Core `c` goes on and prints what it holds for its task `u`. The task that it runs afterwards
may be another one, which no core ran before. -/
theorem Printed.advanced {u : Nat} (hout : Printed img smp log outs m) (h : Inv l img tasks log m)
    (h' : Inv l img tasks log m') (hc : c < smp) (hu : (m.os.core c).current = some u)
    (hq : Quiet l c m m') (hcons : m'.console = m.console ++ (held m c).toList)
    (hafter : calling (m'.phase c) = none) :
    Printed img smp log (outs ++ ((held m c).map fun p => (u, p)).toList) m' := by
  have hrest : ∀ v, (∀ d < smp, d ≠ c → (m.os.core d).current ≠ some v) →
      asked img log v = printed (outs ++ ((held m c).map fun p => (u, p)).toList) v := by
    intro v hv
    by_cases hvu : v = u
    · subst hvu
      rw [printed_self]
      exact hout.running c hc v hu
    · rw [printed_other hvu]
      refine hout.waiting v fun d hd hdv => ?_
      by_cases hdc : d = c
      · subst hdc
        exact hvu (Option.some.inj (hdv.symm.trans hu))
      · exact hv d hd hdc hdv
  refine ⟨?_, fun d hd v hv => ?_, fun v hv => hrest v fun d hd hdc => ?_⟩
  · rw [hcons, hout.console, List.map_append]
    cases held m c <;> rfl
  · by_cases hdc : d = c
    · subst hdc
      rw [held_none hafter, Option.toList_none, List.append_nil]
      refine hrest v fun e he hed hev => hed (h'.alone hd hv e he ?_)
      rw [hq.current e he hed, hev]
    · have hv' : (m.os.core d).current = some v := (hq.current d hd hdc).symm.trans hv
      have hvu : v ≠ u := by
        rintro rfl
        exact hdc (h.alone hc hu d hd hv')
      rw [printed_other hvu, hq.held h h' hd hdc]
      exact hout.running d hd v hv'
  · rw [← hq.current d hd hdc]
    exact hv d hd

/-- A trap of task `u` on core `c`: only `u` has asked for more, and core `c` now holds it. -/
theorem Printed.trapped {t : Trap} {u : Nat} (hout : Printed img smp log outs m)
    (h : Inv l img tasks log m) (h' : Inv l img tasks (log ++ [(u, t)]) m') (hc : c < smp)
    (hu : (m.os.core c).current = some u) (hp : m.phase c = .out) (hq : Quiet l c m m')
    (hcons : m'.console = m.console) (hu' : (m'.os.core c).current = some u)
    (hheld : held m' c = printOf img t) : Printed img smp (log ++ [(u, t)]) outs m' := by
  have hbefore : held m c = none := held_none (by simp [hp, calling])
  refine ⟨hcons.trans hout.console, fun d hd v hv => ?_, fun v hv => ?_⟩
  · by_cases hdc : d = c
    · subst hdc
      obtain rfl : u = v := Option.some.inj (hu'.symm.trans hv)
      have hsofar : asked img log u = printed outs u := by
        simpa [hbefore] using hout.running d hd u hu
      rw [asked_self, hsofar, hheld]
    · have hv' : (m.os.core d).current = some v := (hq.current d hd hdc).symm.trans hv
      have hvu : v ≠ u := by
        rintro rfl
        exact hdc (h.alone hc hu d hd hv')
      rw [asked_other hvu, hq.held h h' hd hdc]
      exact hout.running d hd v hv'
  · have hvu : v ≠ u := by
      rintro rfl
      exact hv c hc hu'
    rw [asked_other hvu]
    refine hout.waiting v fun d hd hdv => ?_
    by_cases hdc : d = c
    · subst hdc
      exact hvu (Option.some.inj (hdv.symm.trans hu))
    · exact hv d hd ((hq.current d hd hdc).trans hdv)

theorem emitted_advance {v : Fin 31 → Word} {u : Nat} (hc : c < smp)
    (hu : (m.os.core c).current = some u) :
    emitted smp m (.advance c v) = (held m c).map fun p => (u, p) := by
  simp only [emitted, if_pos hc, hu, Option.map_some]
  cases held m c <;> rfl

theorem Printed.trap {t : Trap} (hout : Printed img smp log outs m) (h : Inv l img tasks log m)
    (hc : c < smp) (hs : m.trap img c t = some m')
    (h' : Inv l img tasks (log ++ (logged smp m (.trap c t)).toList) m') :
    Printed img smp (log ++ (logged smp m (.trap c t)).toList) outs m' := by
  by_cases hcan : m.canTrap c t = true
  · have hboth := hcan
    simp only [Machine.canTrap, Bool.and_eq_true, decide_eq_true_eq] at hboth
    obtain ⟨u, hu⟩ := h.current hc
    have hlog : logged smp m (.trap c t) = some (u, t) := by simp [logged, hc, hcan, hu]
    rw [hlog] at h' ⊢
    obtain ⟨hq, hcons, hcur, hframe, hcall⟩ := quiet_trap h hc hcan hs
    have hheld : held m' c = printOf img t := by rw [held_eq h' hc, hcall, hframe, printOf]
    exact hout.trapped h h' hc hu hboth.1 hq hcons (hcur.trans hu) hheld
  · have hlog : logged smp m (.trap c t) = none := by simp [logged, hcan]
    rw [Machine.trap, if_neg hcan] at hs
    cases hs
    rw [hlog]
    simpa using hout

theorem Printed.advance {v : Fin 31 → Word} (hout : Printed img smp log outs m)
    (h : Inv l img tasks log m) (hc : c < smp) (hs : m.advance smp c v = some m')
    (h' : Inv l img tasks log m') :
    Printed img smp log (outs ++ (emitted smp m (.advance c v)).toList) m' := by
  obtain ⟨u, hu⟩ := h.current hc
  rw [emitted_advance hc hu]
  have hsilent : calling (m.phase c) = none → m'.console = m.console →
      m'.console = m.console ++ (held m c).toList := by
    intro hno hcons
    rw [held_none hno, hcons, Option.toList_none, List.append_nil]
  unfold Machine.advance at hs
  cases hp : m.phase c with
  | out =>
    have huser := h.quiet c hc (by simp [hp])
    simp only [hp, Smp.State.step, if_pos hc, Smp.State.advance, huser, Option.map_some,
      Option.some.injEq] at hs
    subst hs
    rw [held_none (by simp [hp, calling])]
    simpa [Machine.withOs] using hout
  | tick =>
    simp only [hp] at hs
    obtain ⟨hq, hcons, hafter⟩ := quiet_tick h hc hp hs
    exact hout.advanced h h' hc hu hq (hsilent (by simp [hp, calling]) hcons) hafter
  | svc func input =>
    simp only [hp, Option.some.injEq] at hs
    subst hs
    obtain ⟨hq, hcons, hafter⟩ := quiet_svc h hc hp
    exact hout.advanced h h' hc hu hq hcons hafter
  | leaving =>
    simp only [hp, Option.some.injEq] at hs
    subst hs
    obtain ⟨hq, hafter⟩ := quiet_leave l m c v
    exact hout.advanced h h' hc hu hq (hsilent (by simp [hp, calling]) rfl) hafter
  | hung =>
    simp only [hp, Option.some.injEq] at hs
    subst hs
    rw [held_none (by simp [hp, calling])]
    simpa using hout

/-- One step of the machine. -/
theorem Printed.step (hout : Printed img smp log outs m) (h : Inv l img tasks log m) (e : Event)
    (hh : Handled img e) :
    ∃ m', m.step img smp e = some m' ∧ Inv l img tasks (log ++ (logged smp m e).toList) m' ∧
      Printed img smp (log ++ (logged smp m e).toList) (outs ++ (emitted smp m e).toList) m' := by
  obtain ⟨m', hs, h'⟩ := h.step e hh
  refine ⟨m', hs, h', ?_⟩
  cases e with
  | trap c t =>
    simp only [Machine.step] at hs
    split at hs
    · rename_i hc
      simpa [emitted] using hout.trap h hc hs h'
    · rename_i hc
      cases hs
      simpa [logged, emitted, hc] using hout
  | advance c v =>
    simp only [logged, Option.toList_none, List.append_nil] at h' ⊢
    simp only [Machine.step] at hs
    split at hs
    · rename_i hc
      exact hout.advance h hc hs h'
    · rename_i hc
      cases hs
      simpa [emitted, hc] using hout

end Step

theorem output_cons (e : Event) (es : List Event) (hs : m.step img smp e = some m') :
    output img smp m (e :: es) = (emitted smp m e).toList ++ output img smp m' es := by
  simp only [output, outputs, hs]
  cases emitted smp m e <;> rfl

/-- A run of the machine. -/
theorem Printed.run {outs : List (Nat × Command)} (hout : Printed img smp log outs m)
    (h : Inv l img tasks log m) (es : List Event) (hh : ∀ e ∈ es, Handled img e) :
    ∃ m', Lib.run (Machine.step img smp) m es = some m' ∧
      Printed img smp (log ++ traps img smp m es) (outs ++ output img smp m es) m' := by
  induction es generalizing m log outs with
  | nil => exact ⟨m, rfl, by simpa [traps, output, outputs] using hout⟩
  | cons e es ih =>
    obtain ⟨m₁, hs, h₁, hout₁⟩ := hout.step h e (hh e List.mem_cons_self)
    obtain ⟨m', hrun, hout'⟩ := ih hout₁ h₁ (fun f hf => hh f (List.mem_cons_of_mem e hf))
    refine ⟨m', by rw [run_cons, hs]; exact hrun, ?_⟩
    rw [traps_cons e es hs, output_cons e es hs, ← List.append_assoc, ← List.append_assoc]
    exact hout'

/-- Every print of a system call is made once and for the task that asked for it. For any number
of cores with a task each, and any interleaving of interrupts, system calls and other traps
with the steps of the handlers, the calls made on the console are those printed for the tasks,
and these are for a task what it asked for in the order of its calls, but for what the task's
core holds in a call that it has still to make. A call of `putc` or `printf` is one step here. -/
theorem task_output (l : Layout smp) (img : Image) (tasks : List (Word × Word))
    (hfit : smp ≤ min tasks.length maxTasks) (x : Nat → Fin 31 → Word)
    (sys : Nat → SysReg → Word) (mem : WordMemory) (es : List Event)
    (hh : ∀ e ∈ es, Handled img e) :
    ∃ m, Lib.run (Machine.step img smp) (start l tasks x sys mem) es = some m ∧
      m.console = (output img smp (start l tasks x sys mem) es).map Prod.snd ∧
      ∀ u, ∃ rest : Option Command,
        asked img (traps img smp (start l tasks x sys mem) es) u =
          printed (output img smp (start l tasks x sys mem) es) u ++ rest.toList ∧
        (rest.isSome → ∃ c < smp, (m.os.core c).current = some u ∧ rest = held m c) := by
  have hstart : Printed img smp [] [] (start l tasks x sys mem) :=
    ⟨rfl, fun c _ u _ => rfl, fun u _ => rfl⟩
  obtain ⟨m, hrun, hout⟩ := hstart.run (start_inv l img tasks hfit x sys mem) es hh
  simp only [List.nil_append] at hout
  refine ⟨m, hrun, hout.console, fun u => ?_⟩
  by_cases hall : ∀ c < smp, (m.os.core c).current ≠ some u
  · exact ⟨none, by simpa using hout.waiting u hall, by simp⟩
  · push Not at hall
    obtain ⟨c, hc, hu⟩ := hall
    exact ⟨held m c, hout.running c hc u hu, fun _ => ⟨c, hc, hu, rfl⟩⟩

/-- Two cores with their stacks in the RAM of the board. -/
def twoCores : Layout 2 where
  sp := fun c => if c = 0 then 0x40010000 else 0x40020000
  fits := by decide
  apart := by decide

def image : Image := ⟨fun _ => none, fun _ => none⟩

def twoStarted : Machine := start twoCores mainTasks (fun _ _ => 0) (fun _ _ => 0) (fun _ => 0)

/-- `svc` with `x8 = 255`. -/
def debugTrap : Trap :=
  ⟨⟨fun i => if i = 8 then 255 else 66, 0x80004000, 0x80000010, 0x5⟩, .sync 0x56000000, 0⟩

/-- Both cores are in a system call, core 1 makes its call, and core 0 has still to make it. -/
def putcAndDebug : List Event := [.trap 0 putcTrap, .trap 1 debugTrap, .advance 1 (fun _ => 0)]

/-- The line of task 1 is printed, and the `A` of task 0 is held. -/
theorem task_output_two :
    ∃ m, Lib.run (Machine.step image 2) twoStarted putcAndDebug = some m ∧
      m.console.length = 1 ∧ asked image (traps image 2 twoStarted putcAndDebug) 0 = [.putc 65] ∧
      printed (output image 2 twoStarted putcAndDebug) 0 = [] ∧
      m.console = (output image 2 twoStarted putcAndDebug).map Prod.snd ∧
      ∀ u, ∃ rest : Option Command,
        asked image (traps image 2 twoStarted putcAndDebug) u =
          printed (output image 2 twoStarted putcAndDebug) u ++ rest.toList ∧
        (rest.isSome → ∃ c < 2, (m.os.core c).current = some u ∧ rest = held m c) := by
  obtain ⟨m, hrun, hcons, hall⟩ := task_output twoCores image mainTasks (by decide) (fun _ _ => 0)
    (fun _ _ => 0) (fun _ => 0) putcAndDebug
    (by simp [putcAndDebug, Handled, putcTrap, debugTrap, syscallTable])
  refine ⟨m, hrun, ?_, rfl, rfl, hcons, hall⟩
  rw [hcons]
  rfl

end Dmos.Proofs.TaskOutput
