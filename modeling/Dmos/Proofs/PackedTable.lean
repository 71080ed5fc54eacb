import Mathlib.Tactic.FinCases
import Dmos.TaskTable
import Dmos.Proofs.Scan

namespace Dmos.Proofs.PackedTable
open Lib Schedule Hyper TaskTable

section Code

/-- What a call must preserve of a processor. -/
def calleeSaved (p : Pe SysReg) : Saved := fun k =>
  if h : k.val < 12 then p.x ⟨19 + k, by omega⟩
  else if k.val = 12 then p.sys .tpidrEl0
  else p.sp

variable (p : Pe SysReg)

theorem switchContext_mem : (p.execAll switchContextCode).mem =
    memcpy p.mem (p.x 0) 14 (fun i => calleeSaved p (Fin.ofNat 14 i)) := by
  simp [memcpy, Nat.fold_succ, switchContextCode, Pe.execAll, Pe.exec, Pe.store, Pe.setX, Pe.setSys,
    Pe.base, slot, calleeSaved, BitVec.add_assoc]

/-- The second half of the code fills the registers from memory. -/
theorem switchContext_drop (k : Fin 14) :
    calleeSaved (p.execAll (switchContextCode.drop 9)) k = p.mem (slot (p.x 1) k) := by
  simp only [switchContextCode, List.drop_succ_cons, List.drop_zero, Pe.execAll, List.foldl_cons,
    List.foldl_nil, Pe.exec, Pe.setX, Pe.setSys, Pe.base, calleeSaved, BitVec.add_assoc]
  fin_cases k <;> rfl

theorem switchContext_loads (k : Fin 14) :
    calleeSaved (p.execAll switchContextCode) k = (p.execAll switchContextCode).mem (slot (p.x 1) k) := by
  have hsplit : p.execAll switchContextCode =
      (p.execAll (switchContextCode.take 9)).execAll (switchContextCode.drop 9) := rfl
  have hx : (p.execAll (switchContextCode.take 9)).x 1 = p.x 1 := rfl
  have hmem : ∀ q : Pe SysReg, (q.execAll (switchContextCode.drop 9)).mem = q.mem :=
    fun q => q.execAll_mem (by decide)
  rw [hsplit, switchContext_drop, hmem, hx]

/-- The code works on the doublewords of the table, and past the last entry on those
behind it. -/
theorem switchContext_words {base : Word} {m : Words} {prev next : Nat}
    (hb : base.toNat + 8 * 392 ≤ 2 ^ 64) (hprev : prev < maxTasks) (hnext : next < maxTasks)
    (hm : Filled p.mem base 392 m) (h0 : p.x 0 = slot base (6 * prev))
    (h1 : p.x 1 = slot base (6 * next)) :
    Filled (p.execAll switchContextCode).mem base 392 (m.storeContext prev (calleeSaved p)) ∧
      calleeSaved (p.execAll switchContextCode) =
        (m.storeContext prev (calleeSaved p)).loadContext next := by
  simp only [maxTasks] at hprev hnext
  have hdst : (slot base (6 * prev)).toNat = base.toNat + 8 * (6 * prev) := toNat_slot (by omega)
  have hwords : Filled (p.execAll switchContextCode).mem base 392
      (m.storeContext prev (calleeSaved p)) := by
    intro w hw
    rw [switchContext_mem, h0, Words.storeContext]
    split
    · rename_i hin
      have hslot : slot base w = slot (slot base (6 * prev)) (w - 6 * prev) := by
        rw [slot_slot, Nat.add_sub_cancel' hin.1]
      rw [hslot, filled_memcpy _ _ (by omega) _ (by omega)]
      congr 1
      exact Fin.ext (Nat.mod_eq_of_lt (by omega))
    · rename_i hout
      rw [memcpy_frame, hm w hw]
      intro i hi
      rw [slot_slot]
      exact slot_ne (by omega) (by omega) (by omega)
  refine ⟨hwords, funext fun k => ?_⟩
  have hk := k.isLt
  rw [switchContext_loads, h1, slot_slot, hwords _ (by omega)]
  rfl

end Code

section Records

def stateOf (st : BitVec 32) : TaskState := if st = running then .running else .waiting

/-- What the record model keeps of an entry. -/
def record (cpuAt : Word → Option Nat) (t : PackedTcb) : Tcb :=
  ⟨cpuAt t.cpuInfo, stateOf t.state, t.counter.toNat, t.id.toNat⟩

def kernel (cpuAt : Word → Option Nat) (m : Words) (cpuDec : Nat → Cpu) (taskCount : Nat) : Kernel :=
  ⟨fun i => record cpuAt (m.tcb i), cpuDec, taskCount⟩

variable (cpuAt : Word → Option Nat) (m : Words) (d : Nat → Cpu) (n i : Nat)

theorem overlay_record :
    overlay cpuAt (m (6 * i)) (m (6 * i + 2)) (m (6 * i + 3)) = record cpuAt (m.tcb i) := by
  simp only [overlay, record, Words.tcb, toNat_hi, BitVec.toNat_ushiftRight,
    Nat.shiftRight_eq_div_pow]
  rfl

theorem toSys_eq (p : Packed) :
    p.toSys cpuAt = ⟨kernel cpuAt p.words p.cpuDec p.taskCount.toNat, p.current⟩ := by
  simp only [Packed.toSys, overlay_record]
  rfl

/-- A store to the fields of one entry. -/
theorem kernel_modTask {m' : Words} {g : PackedTcb → PackedTcb} {f : Tcb → Tcb}
    (hm : ∀ j, m'.tcb j = if j = i then g (m.tcb i) else m.tcb j)
    (hg : ∀ t, record cpuAt (g t) = f (record cpuAt t)) :
    kernel cpuAt m' d n = (kernel cpuAt m d n).modTask i f := by
  simp only [kernel, Kernel.modTask, Kernel.mk.injEq, and_true]
  funext j
  rw [Function.update_apply, hm]
  split
  · exact hg _
  · rfl

theorem kernel_setState (st : BitVec 32) :
    kernel cpuAt (m.setState i st) d n = (kernel cpuAt m d n).setState i (stateOf st) :=
  kernel_modTask cpuAt m d n i (g := fun t => { t with state := st })
    (fun j => m.tcb_setState i j st) (fun _ => rfl)

theorem kernel_setCounter (c : BitVec 32) :
    kernel cpuAt (m.setCounter i c) d n = (kernel cpuAt m d n).setCounter i c.toNat :=
  kernel_modTask cpuAt m d n i (g := fun t => { t with counter := c })
    (fun j => m.tcb_setCounter i j c) (fun _ => rfl)

theorem kernel_scanFrom (id k l next : Nat) :
    m.scanFrom n id k l next = (kernel cpuAt m d n).scanFrom id k l next := by
  induction k generalizing l next with
  | zero => rfl
  | succ k ih =>
    have hstate : ((kernel cpuAt m d n).taskList ((id + l) % 2 ^ 32 % n)).state = .running ↔
        (m.tcb ((id + l) % 2 ^ 32 % n)).state = running := by
      simp [kernel, record, stateOf]
    rw [Words.scanFrom, Kernel.scanFrom]
    simp only [← hstate, ih]
    rfl

theorem kernel_scan (id : Nat) : m.scan n id = (kernel cpuAt m d n).scan id :=
  kernel_scanFrom cpuAt m d n id _ _ _

theorem kernel_storeContext (prev : Nat) (r : Saved) :
    kernel cpuAt (m.storeContext prev r) d n =
      Schedule.switchContext cpuAt (kernel cpuAt m d n) prev r := by
  have hst : ∀ k : Fin 14, m.storeContext prev r (6 * prev + k) = r k := m.storeContext_stored prev r
  have hout : ∀ w, (∀ k : Fin 14, w ≠ 6 * prev + k) → m.storeContext prev r w = m w :=
    fun w => m.storeContext_of_not prev r
  simp only [kernel, Schedule.switchContext, Kernel.modTask, Kernel.mk.injEq, and_true]
  funext j
  rw [← overlay_record, Function.update_apply]
  by_cases h2 : j = prev + 2
  · subst h2
    have hne1 : prev + 2 ≠ prev + 1 := by omega
    have hne0 : prev + 2 ≠ prev := by omega
    rw [if_pos rfl, Function.update_of_ne hne1, Function.update_of_ne hne0, ← overlay_record,
      hout (6 * (prev + 2) + 2) (by omega), hout (6 * (prev + 2) + 3) (by omega)]
    rw [show m.storeContext prev r (6 * (prev + 2)) = r 12 from hst 12]
    rfl
  rw [if_neg h2, Function.update_apply]
  by_cases h1 : j = prev + 1
  · subst h1
    rw [if_pos rfl]
    exact congr (congr (congrArg _ (hst 6)) (hst 8)) (hst 9)
  rw [if_neg h1, Function.update_apply]
  by_cases h0 : j = prev
  · subst h0
    rw [if_pos rfl]
    exact congr (congr (congrArg _ (hst 0)) (hst 2)) (hst 3)
  · rw [if_neg h0, hout _ (by omega), hout _ (by omega), hout _ (by omega), overlay_record]

end Records

section Refinement

variable (cpuAt : Word → Option Nat) (smp : Nat) (p : Packed) (c : Nat)

theorem criticalSection_toSys (curr : Nat) :
    (p.criticalSection c curr).map (fun r => (r.1.toSys cpuAt, r.2)) =
      ((p.toSys cpuAt).kernel.criticalSection curr).map (fun r =>
        (⟨r.1, Function.update p.current c (r.2.1.or (p.current c))⟩, r.2.2)) := by
  have hid : ((p.toSys cpuAt).kernel.taskList curr).id = (p.words.tcb curr).id.toNat := by
    rw [toSys_eq]
    rfl
  have hscan : (p.toSys cpuAt).kernel.scan (p.words.tcb curr).id.toNat =
      p.words.scan p.taskCount.toNat (p.words.tcb curr).id.toNat := by
    rw [toSys_eq, kernel_scan cpuAt p.words p.cpuDec]
  simp only [Packed.criticalSection, Kernel.criticalSection, hid, hscan]
  cases p.words.scan p.taskCount.toNat (p.words.tcb curr).id.toNat with
  | mk next found =>
    cases found with
    | false => simp [toSys_eq]
    | true =>
      simp only
      split
      · simp only [Option.map_some, toSys_eq, kernel_setState]
        rfl
      · rfl

theorem schedule_toSys (sp : Sp) :
    (p._schedule cpuAt smp c sp).map (fun r => r.1.toSys cpuAt) =
      (p.toSys cpuAt)._schedule cpuAt smp c sp := by
  have hcount : (p.toSys cpuAt).kernel.taskCount = p.taskCount.toNat := rfl
  have hcur : (p.toSys cpuAt).current c = p.current c := rfl
  unfold Packed._schedule Sys._schedule
  rw [hcount]
  split
  · rfl
  rw [hcur]
  cases hcurr : p.current c with
  | none => rfl
  | some curr =>
    have hcs := criticalSection_toSys cpuAt p c curr
    simp only [Option.bind_eq_bind, Option.bind_some]
    cases hk : (p.toSys cpuAt).kernel.criticalSection curr with
    | none =>
      rw [hk, Option.map_none, Option.map_eq_none_iff] at hcs
      rw [hcs]
      rfl
    | some r =>
      obtain ⟨k, stored, next⟩ := r
      rw [hk, Option.map_some, Option.map_eq_some_iff] at hcs
      obtain ⟨⟨q, next'⟩, hq, he⟩ := hcs
      obtain ⟨hqs, rfl⟩ := Prod.mk.inj he
      rw [hcurr] at hqs
      rw [hq]
      rw [toSys_eq] at hqs
      obtain ⟨rfl, hqc⟩ := Sys.mk.inj hqs
      simp only [Option.bind_some, toSys_eq, ← hqc]
      split
      · rfl
      · cases sp with
        | frame =>
          cases hcpu : cpuAt (q.words.tcb next').cpuInfo with
          | none => simp [Kernel.switchContextEl, kernel, record, hcpu]
          | some cpu => simp [Kernel.switchContextEl, kernel, record, hcpu]
        | null regs => simp only [Option.map_some, kernel_storeContext]

theorem createTask_toSys {cpuAddr : Nat → Word} (hcpu : ∀ t < maxTasks, cpuAt (cpuAddr t) = some t)
    (f st : Word) : (p.createTask cpuAddr f st).toSys cpuAt =
      { p.toSys cpuAt with kernel := (p.toSys cpuAt).kernel.createTask f st } := by
  have hcount : (kernel cpuAt p.words p.cpuDec p.taskCount.toNat).taskCount = p.taskCount.toNat := rfl
  simp only [toSys_eq, Packed.createTask, Kernel.createTask, hcount]
  split
  · rfl
  · rename_i hlt
    have hlt : p.taskCount.toNat < maxTasks := by omega
    have hnext : (p.taskCount + 1).toNat = p.taskCount.toNat + 1 := by
      simp only [maxTasks] at hlt
      bv_omega
    have hentry : ∀ d n, kernel cpuAt (((p.words.setId p.taskCount.toNat p.taskCount).setState
        p.taskCount.toNat waiting).setCpuInfo p.taskCount.toNat (cpuAddr p.taskCount.toNat)) d n =
        (kernel cpuAt p.words d n).modTask p.taskCount.toNat (fun tcb => { tcb with
          id := p.taskCount.toNat, state := .waiting, cpuInfo := some p.taskCount.toNat }) := by
      intro d n
      apply kernel_modTask (g := fun t => { t with
        id := p.taskCount, state := waiting, cpuInfo := cpuAddr p.taskCount.toNat })
      · intro j
        rw [Words.tcb_setCpuInfo, Words.tcb_setState, Words.tcb_setState, Words.tcb_setId,
          Words.tcb_setId, if_pos rfl, if_pos rfl]
        split <;> rfl
      · intro t
        simp only [record, hcpu _ hlt]
        rfl
    rw [kernel_setCounter, hentry, hnext]
    rfl

theorem timerTick_toSys : (p.timerTickSchedule cpuAt smp c).map (Packed.toSys cpuAt) =
    (p.toSys cpuAt).timerTickSchedule cpuAt smp c := by
  have hcur : (p.toSys cpuAt).current c = p.current c := rfl
  rw [Packed.timerTickSchedule, Sys.timerTickSchedule, hcur]
  cases p.current c with
  | none => rfl
  | some curr =>
    have hsub : ((p.words.tcb curr).counter - 1).toNat =
        ((p.words.tcb curr).counter.toNat + (2 ^ 32 - 1)) % 2 ^ 32 := by
      rw [BitVec.toNat_sub, Nat.add_comm]
      rfl
    have hdec : (kernel cpuAt p.words p.cpuDec p.taskCount.toNat).decCounter curr =
        kernel cpuAt (p.words.setCounter curr ((p.words.tcb curr).counter - 1)) p.cpuDec
          p.taskCount.toNat := by
      rw [kernel_setCounter, hsub]
      rfl
    have htest : ∀ m : Words, ((kernel cpuAt m p.cpuDec p.taskCount.toNat).taskList curr).counter > 0 ↔
        (m.tcb curr).counter > 0 := fun _ => Iff.rfl
    simp only [Option.bind_eq_bind, Option.bind_some, toSys_eq, hdec, htest]
    split
    · rw [Option.map_some, toSys_eq]
    · rw [Option.map_map]
      refine (schedule_toSys cpuAt smp _ c .frame).trans ?_
      simp only [toSys_eq, kernel_setCounter]
      rfl

/-- Packing the table changes nothing of what the calls do to the fields of the record
model. -/
theorem step_toSys {cpuAddr : Nat → Word} (hcpu : ∀ t < maxTasks, cpuAt (cpuAddr t) = some t)
    (e : Call) :
    (p.step cpuAt cpuAddr smp e).map (Packed.toSys cpuAt) =
      Schedule.step cpuAt smp (p.toSys cpuAt) e := by
  cases e with
  | createTask f st => exact congrArg some (createTask_toSys cpuAt p hcpu f st)
  | timerTickSchedule c =>
    simp only [Packed.step, Schedule.step]
    split
    · exact timerTick_toSys cpuAt smp p c
    · rfl
  | schedule c regs =>
    simp only [Packed.step, Schedule.step]
    split
    · rw [Packed.schedule, Sys.schedule, Option.map_map]
      have hcur : (p.toSys cpuAt).current c = p.current c := rfl
      rw [hcur]
      cases p.current c with
      | none => rfl
      | some curr =>
        simp only [Option.bind_eq_bind, Option.bind_some]
        refine (schedule_toSys cpuAt smp _ c (.null regs)).trans ?_
        simp only [toSys_eq, kernel_setCounter]
        rfl
    · rfl

theorem run_toSys {cpuAddr : Nat → Word} (hcpu : ∀ t < maxTasks, cpuAt (cpuAddr t) = some t)
    (es : List Call) :
    (run (Packed.step cpuAt cpuAddr smp) p es).map (Packed.toSys cpuAt) =
      run (Schedule.step cpuAt smp) (p.toSys cpuAt) es :=
  run_map (fun q e => step_toSys cpuAt smp q hcpu e) es p

end Refinement

end Dmos.Proofs.PackedTable
