import Mathlib.Data.Finset.Card
import Mathlib.Data.Finset.Range
import Dmos.Bringup
import Dmos.Proofs.Boot

namespace Dmos.Proofs.Barrier
open Bringup Boot

/-- The cores that have been counted. -/
def arrived (smp : Nat) (pc : Nat → Pc) : Finset Nat :=
  (Finset.range smp).filter (fun c => (pc c).counted = true)

/-- The counter and its lock. -/
structure Counting (smp : Nat) (pc : Nat → Pc) (lock : Option Nat) (n : Nat) : Prop where
  count : n = (arrived smp pc).card
  holder : ∀ c, lock = some c → c < smp
  held : ∀ c < smp, (pc c).holding = true ↔ lock = some c
  temp : ∀ c < smp, ∀ m, pc c = .storeInited m → m = n
  passed : ∀ c < smp, (pc c).passed = true → n = smp

variable {smp : Nat} {pc : Nat → Pc} {lock : Option Nat} {n c : Nat} {p : Pc}

theorem arrived_update (h : p.counted = (pc c).counted) :
    arrived smp (Function.update pc c p) = arrived smp pc := by
  unfold arrived
  apply Finset.filter_congr
  intro d _
  by_cases hd : d = c
  · rw [hd, Function.update_self, h]
  · rw [Function.update_of_ne hd]

theorem arrived_insert (hc : c < smp) (hp : p.counted = true) :
    arrived smp (Function.update pc c p) = insert c (arrived smp pc) := by
  ext d
  simp only [arrived, Finset.mem_filter, Finset.mem_range, Finset.mem_insert]
  by_cases hd : d = c
  · simp [hd, hc, hp]
  · simp [hd]

/-- When the counter is full, every core has been counted. -/
theorem Counting.all (h : Counting smp pc lock n) (hn : n = smp) (hc : c < smp) :
    (pc c).counted = true := by
  have hfull : arrived smp pc = Finset.range smp := by
    refine Finset.eq_of_subset_of_card_le (Finset.filter_subset _ _) ?_
    rw [Finset.card_range, ← h.count, hn]
  have hmem : c ∈ arrived smp pc := by
    rw [hfull]
    exact Finset.mem_range.mpr hc
  exact (Finset.mem_filter.mp hmem).2

theorem Counting.le (h : Counting smp pc lock n) : n ≤ smp := by
  rw [h.count]
  exact (Finset.card_filter_le _ _).trans (Finset.card_range smp).le

/-- A step of core `c` that leaves the counter alone. Other cores see the lock
taken or free as before. -/
theorem Counting.move (h : Counting smp pc lock n) {lock' : Option Nat}
    (hcount : p.counted = (pc c).counted) (hholder : ∀ d, lock' = some d → d < smp)
    (hself : p.holding = true ↔ lock' = some c)
    (hother : ∀ d, d ≠ c → (lock' = some d ↔ lock = some d))
    (htemp : ∀ m, p = .storeInited m → m = n) (hpass : p.passed = true → n = smp) :
    Counting smp (Function.update pc c p) lock' n := by
  refine ⟨by rw [arrived_update hcount]; exact h.count, hholder, ?_, ?_, ?_⟩
  · intro d hd
    by_cases hdc : d = c
    · rw [hdc, Function.update_self]
      exact hself
    · rw [Function.update_of_ne hdc, hother d hdc]
      exact h.held d hd
  · intro d hd m hm
    by_cases hdc : d = c
    · rw [hdc, Function.update_self] at hm
      exact htemp m hm
    · rw [Function.update_of_ne hdc] at hm
      exact h.temp d hd m hm
  · intro d hd hp
    by_cases hdc : d = c
    · rw [hdc, Function.update_self] at hp
      exact hpass hp
    · rw [Function.update_of_ne hdc] at hp
      exact h.passed d hd hp

/-- A step outside the lock, or one inside it that keeps it. -/
theorem Counting.goto (h : Counting smp pc lock n) (hc : c < smp)
    (hcount : p.counted = (pc c).counted) (hhold : p.holding = (pc c).holding)
    (htemp : ∀ m, p = .storeInited m → m = n) (hpass : p.passed = true → n = smp) :
    Counting smp (Function.update pc c p) lock n :=
  h.move hcount h.holder (by rw [hhold]; exact h.held c hc) (fun _ _ => Iff.rfl) htemp hpass

theorem Counting.acquire (h : Counting smp pc none n) (hc : c < smp) (hp : pc c = .lockInited) :
    Counting smp (Function.update pc c .loadInited) (some c) n := by
  refine h.move (by rw [hp]; rfl) ?_ (by simp [Pc.holding]) ?_ nofun nofun
  · intro d hd
    exact Option.some.inj hd ▸ hc
  · intro d hd
    simp [Ne.symm hd]

theorem Counting.release (h : Counting smp pc lock n) (hc : c < smp) (hp : pc c = .unlockInited) :
    Counting smp (Function.update pc c .waitInited) none n := by
  have hlock : lock = some c := (h.held c hc).mp (by rw [hp]; rfl)
  refine h.move (by rw [hp]; rfl) nofun (by simp [Pc.holding]) ?_ nofun nofun
  intro d hd
  simp [hlock, Ne.symm hd]

/-- The locked increment: the value read is still the counter's, because no other
core can have been between its load and its store. -/
theorem Counting.store (h : Counting smp pc lock n) (hc : c < smp) {m : Nat}
    (hp : pc c = .storeInited m) :
    Counting smp (Function.update pc c .unlockInited) lock (m + 1) := by
  have hm : m = n := h.temp c hc m hp
  have hlock : lock = some c := (h.held c hc).mp (by rw [hp]; rfl)
  have hnot : c ∉ arrived smp pc := by
    intro hmem
    have hcounted := (Finset.mem_filter.mp hmem).2
    rw [hp] at hcounted
    cases hcounted
  refine ⟨?_, h.holder, ?_, ?_, ?_⟩
  · rw [arrived_insert hc rfl, Finset.card_insert_of_notMem hnot, ← h.count, hm]
  · intro d hd
    by_cases hdc : d = c
    · simp [hdc, Pc.holding, hlock]
    · rw [Function.update_of_ne hdc]
      exact h.held d hd
  · intro d hd k hk
    by_cases hdc : d = c
    · simp [hdc] at hk
    · rw [Function.update_of_ne hdc] at hk
      have hold := (h.held d hd).mp (by rw [hk]; rfl)
      rw [hlock] at hold
      exact absurd (Option.some.inj hold).symm hdc
  · intro d hd hpass
    by_cases hdc : d = c
    · simp [hdc, Pc.passed] at hpass
    · rw [Function.update_of_ne hdc] at hpass
      -- a core already past the loop means that this one has been counted before
      have hall := h.all (h.passed d hd hpass) hc
      rw [hp] at hall
      cases hall

/-- Core `i` has its `thread_info`. -/
def Done (info : Nat → ThreadInfo) (i : Nat) : Prop := (info i).cpu = i ∧ (info i).flags = 0

/-- The table that `schedule_init` and the `create_task` calls leave, up to the states
that `schedule_init_local` writes later. -/
structure TableOf (tasks : List (Word × Word)) (k : Kernel) : Prop where
  count : k.taskCount = (Smp.handoff tasks).kernel.taskCount
  cpuDec : k.cpuDec = (Smp.handoff tasks).kernel.cpuDec
  id : ∀ t, (k.taskList t).id = ((Smp.handoff tasks).kernel.taskList t).id
  cpuInfo : ∀ t, (k.taskList t).cpuInfo = ((Smp.handoff tasks).kernel.taskList t).cpuInfo
  counter : ∀ t, (k.taskList t).counter = ((Smp.handoff tasks).kernel.taskList t).counter

/-- How far core 0 has come with the work that the others wait for. -/
def Primary (smp : Nat) (tasks : List (Word × Word)) (info : Nat → ThreadInfo) (k : Kernel) :
    Pc → Prop
  | .off | .secondKernelMain => False
  | .kernelMain => k = Kernel.bss
  | .threadInfoInit i l => i < smp ∧ k = Kernel.bss ∧ (∀ j < i, Done info j) ∧
      (l = .flags → (info i).cpu = i)
  | .cpuOn i | .delay i => i < smp ∧ k = Kernel.bss ∧ ∀ j < i, Done info j
  | .mainEntry | .scheduleInit => k = Kernel.bss ∧ ∀ j < smp, Done info j
  | .createTask rest => (∀ j < smp, Done info j) ∧
      ∃ before, tasks = before ++ rest ∧ k = (Smp.handoff before).kernel
  | _ => (∀ j < smp, Done info j) ∧ TableOf tasks k

/-- What a started core other than 0 executes. -/
def Secondary (p : Pc) : Prop :=
  p = .off ∨ p = .secondKernelMain ∨ p = .mainEntry ∨ p.shared = true

/-- What a core's own statements say about its `thread_info`. -/
def Local (c : Nat) (x : ThreadInfo) (p : Pc) : Prop :=
  (∀ m, p = .storeCurrent m → m = c) ∧ (p.stored = true → x.currentThread = some c)

structure Inv (smp : Nat) (tasks : List (Word × Word)) (s : State) : Prop where
  counting : Counting smp s.pc s.lock s.initedCpuNum
  primary : Primary smp tasks s.info s.kernel (s.pc 0)
  secondary : ∀ c < smp, c ≠ 0 → Secondary (s.pc c)
  alone : s.pc 0 = .kernelMain → ∀ c, c ≠ 0 → s.pc c = .off
  own : ∀ c < smp, Local c (s.info c) (s.pc c)

variable {tasks : List (Word × Word)} {s : State}

/-- The barrier: nobody is past the wait loop before core 0 is counted. -/
theorem Inv.none_passed (h : Inv smp tasks s) (hsmp : 0 < smp) (h0 : (s.pc 0).counted = false)
    (hc : c < smp) : (s.pc c).passed = false := by
  cases hp : (s.pc c).passed with
  | false => rfl
  | true =>
    have hall := h.counting.all (h.counting.passed c hc hp) hsmp
    rw [h0] at hall
    cases hall

theorem local_of_not_passed {x : ThreadInfo} (h : p.passed = false) : Local c x p := by
  cases p <;> simp_all [Local, Pc.passed, Pc.stored]

theorem counted_of_passed (h : p.passed = true) : p.counted = true := by
  cases p <;> first | rfl | cases h

/-- In the shared part core 0 has done all its work. -/
theorem primary_shared {info : Nat → ThreadInfo} {k : Kernel} (h : p.shared = true) :
    Primary smp tasks info k p ↔ (∀ j < smp, Done info j) ∧ TableOf tasks k := by
  cases p <;> first | exact Iff.rfl | cases h

theorem shared_of_counted (h : p.counted = true) : p.shared = true := by
  cases p <;> first | rfl | cases h

/-- A step of any core around the counter. It touches no `thread_info` and no task. -/
theorem Inv.sharedStep (h : Inv smp tasks s) {s' : State}
    (hold : (s.pc c).shared = true) (hnew : p.shared = true)
    (hpc : s'.pc = Function.update s.pc c p) (hinfo : s'.info = s.info)
    (hk : s'.kernel = s.kernel) (hcount : Counting smp s'.pc s'.lock s'.initedCpuNum)
    (hlocal : Local c (s.info c) p) : Inv smp tasks s' := by
  refine ⟨hcount, ?_, ?_, ?_, ?_⟩
  · rw [hinfo, hk, hpc]
    by_cases h0 : 0 = c
    · subst h0
      rw [Function.update_self, primary_shared hnew]
      exact (primary_shared hold).mp h.primary
    · rw [Function.update_of_ne h0]
      exact h.primary
  · intro d hd hd0
    rw [hpc]
    by_cases hdc : d = c
    · rw [hdc, Function.update_self]
      exact .inr (.inr (.inr hnew))
    · rw [Function.update_of_ne hdc]
      exact h.secondary d hd hd0
  · intro h0
    rw [hpc] at h0
    by_cases hc0 : 0 = c
    · rw [hc0, Function.update_self] at h0
      rw [h0] at hnew
      cases hnew
    · rw [Function.update_of_ne hc0] at h0
      have hoff := h.alone h0 c (Ne.symm hc0)
      rw [hoff] at hold
      cases hold
  · intro d hd
    rw [hpc, hinfo]
    by_cases hdc : d = c
    · subst hdc
      rw [Function.update_self]
      exact hlocal
    · rw [Function.update_of_ne hdc]
      exact h.own d hd

/-- A step of a core that is past the loop. Core 0 is done by then, so the core may
write its own `thread_info` and the state of a task. -/
theorem Inv.passedStep (h : Inv smp tasks s) (hsmp : 0 < smp) (hc : c < smp) {s' : State}
    (hold : (s.pc c).passed = true) (hnew : p.passed = true)
    (hpc : s'.pc = Function.update s.pc c p) (hlock : s'.lock = s.lock)
    (hinited : s'.initedCpuNum = s.initedCpuNum)
    (hothers : ∀ d, d ≠ c → s'.info d = s.info d)
    (hdone : Done s.info c → Done s'.info c ∧ Local c (s'.info c) p)
    (htable : TableOf tasks s.kernel → TableOf tasks s'.kernel) : Inv smp tasks s' := by
  have hfull := h.counting.passed c hc hold
  have h0 := shared_of_counted (h.counting.all hfull hsmp)
  obtain ⟨hall, htab⟩ := (primary_shared h0).mp h.primary
  have hplain : ∀ q : Pc, q.passed = true → q.counted = true ∧ q.holding = false ∧
      q.shared = true ∧ ∀ m, q ≠ .storeInited m := by
    intro q hq
    cases q <;> first | exact ⟨rfl, rfl, rfl, nofun⟩ | cases hq
  obtain ⟨hcold, hhold, -, -⟩ := hplain _ hold
  obtain ⟨hcnew, hhnew, hsnew, hst⟩ := hplain p hnew
  have h0' : (s'.pc 0).shared = true := by
    rw [hpc]
    by_cases hc0 : 0 = c
    · rw [hc0, Function.update_self]
      exact hsnew
    · rw [Function.update_of_ne hc0]
      exact h0
  refine ⟨?_, (primary_shared h0').mpr ⟨?_, htable htab⟩, ?_, ?_, ?_⟩
  · rw [hpc, hlock, hinited]
    exact h.counting.goto hc (by rw [hcold, hcnew]) (by rw [hhold, hhnew])
      (fun m hm => absurd hm (hst m)) (fun _ => hfull)
  · intro j hj
    by_cases hjc : j = c
    · rw [hjc]
      exact (hdone (hall c hc)).1
    · unfold Done
      rw [hothers j hjc]
      exact hall j hj
  · intro d hd hd0
    rw [hpc]
    by_cases hdc : d = c
    · rw [hdc, Function.update_self]
      exact .inr (.inr (.inr hsnew))
    · rw [Function.update_of_ne hdc]
      exact h.secondary d hd hd0
  · intro hkm
    rw [hkm] at h0'
    cases h0'
  · intro d hd
    rw [hpc]
    by_cases hdc : d = c
    · rw [hdc, Function.update_self]
      exact (hdone (hall c hc)).2
    · rw [Function.update_of_ne hdc, hothers d hdc]
      exact h.own d hd

/-- A step of core 0 before the shared part. It may write any `thread_info` and the
table: nobody is past the loop yet. -/
theorem Inv.primaryStep (h : Inv smp tasks s) (hsmp : 0 < smp) {s' : State}
    (hold : (s.pc 0).shared = false) (hpc : s'.pc = Function.update s.pc 0 p)
    (hkm : p ≠ .kernelMain) (hcounted : p.counted = false) (hholding : p.holding = false)
    (hlock : s'.lock = s.lock) (hinited : s'.initedCpuNum = s.initedCpuNum)
    (hprim : Primary smp tasks s'.info s'.kernel p) : Inv smp tasks s' := by
  have hc0 : (s.pc 0).counted = false := by
    cases hc : (s.pc 0).counted with
    | false => rfl
    | true => rw [shared_of_counted hc] at hold; cases hold
  have hh0 : (s.pc 0).holding = false := by
    cases hp : s.pc 0 <;> rw [hp] at hold <;> first | rfl | cases hold
  have hpass : p.passed = false := by
    cases hp : p.passed with
    | false => rfl
    | true => rw [counted_of_passed hp] at hcounted; cases hcounted
  refine ⟨?_, ?_, ?_, ?_, ?_⟩
  · rw [hpc, hlock, hinited]
    refine h.counting.goto hsmp (by rw [hcounted, hc0]) (by rw [hholding, hh0]) ?_ ?_
    · rintro m rfl
      cases hholding
    · intro hp
      rw [hpass] at hp
      cases hp
  · rw [hpc, Function.update_self]
    exact hprim
  · intro d hd hd0
    rw [hpc, Function.update_of_ne hd0]
    exact h.secondary d hd hd0
  · intro h0
    rw [hpc, Function.update_self] at h0
    exact absurd h0 hkm
  · intro d hd
    apply local_of_not_passed
    rw [hpc]
    by_cases hd0 : d = 0
    · rw [hd0, Function.update_self]
      exact hpass
    · rw [Function.update_of_ne hd0]
      exact h.none_passed hsmp hc0 hd

/-- A step of another core on its way to the shared part. -/
theorem Inv.secondaryStep (h : Inv smp tasks s) (hc0 : c ≠ 0) (hc : c < smp)
    (halone : s.pc 0 ≠ .kernelMain) (hcount : (s.pc c).counted = false)
    (hhold : (s.pc c).holding = false) (hp : p = .secondKernelMain ∨ p = .mainEntry ∨ p = .lockInited) :
    Inv smp tasks (s.goto c p) := by
  have hplain : p.counted = false ∧ p.holding = false ∧ p.passed = false ∧ ∀ m, p ≠ .storeInited m := by
    rcases hp with rfl | rfl | rfl <;> exact ⟨rfl, rfl, rfl, nofun⟩
  obtain ⟨hcp, hhp, hpass, hst⟩ := hplain
  refine ⟨?_, ?_, ?_, ?_, ?_⟩
  · refine h.counting.goto hc (by rw [hcp, hcount]) (by rw [hhp, hhold]) (fun m hm => absurd hm (hst m)) ?_
    intro hpp
    rw [hpass] at hpp
    cases hpp
  · show Primary smp tasks s.info s.kernel (Function.update s.pc c p 0)
    rw [Function.update_of_ne (Ne.symm hc0)]
    exact h.primary
  · intro d hd hd0
    show Secondary (Function.update s.pc c p d)
    by_cases hdc : d = c
    · rw [hdc, Function.update_self]
      rcases hp with rfl | rfl | rfl
      · exact .inr (.inl rfl)
      · exact .inr (.inr (.inl rfl))
      · exact .inr (.inr (.inr rfl))
    · rw [Function.update_of_ne hdc]
      exact h.secondary d hd hd0
  · intro h0
    have h0' : Function.update s.pc c p 0 = .kernelMain := h0
    rw [Function.update_of_ne (Ne.symm hc0)] at h0'
    exact absurd h0' halone
  · intro d hd
    show Local d (s.info d) (Function.update s.pc c p d)
    by_cases hdc : d = c
    · rw [hdc, Function.update_self]
      exact local_of_not_passed hpass
    · rw [Function.update_of_ne hdc]
      exact h.own d hd

theorem Inv.primary_not_off (h : Inv smp tasks s) : s.pc 0 ≠ .off := by
  intro hoff
  have hprim := h.primary
  rw [hoff] at hprim
  exact hprim

/-- `CPU_ON` reaches cores that are off, so never core 0. -/
theorem Inv.powerOn (h : Inv smp tasks s) {i : Nat} (hi : i < smp) (halone : s.pc 0 ≠ .kernelMain) :
    Inv smp tasks (s.powerOn i) ∧ (s.powerOn i).pc 0 = s.pc 0 := by
  unfold State.powerOn
  split
  · rename_i hoff
    have hi0 : i ≠ 0 := by
      rintro rfl
      exact h.primary_not_off hoff
    refine ⟨h.secondaryStep hi0 hi halone (by rw [hoff]; rfl) (by rw [hoff]; rfl) (.inl rfl), ?_⟩
    exact Function.update_of_ne (Ne.symm hi0) _ _
  · exact ⟨h, rfl⟩

theorem Done.update {info : Nat → ThreadInfo} {i j : Nat} (h : Done info j) (hij : j ≠ i)
    (x : ThreadInfo) : Done (Function.update info i x) j := by
  unfold Done
  rw [Function.update_of_ne hij]
  exact h

theorem TableOf.setState {k : Kernel} (h : TableOf tasks k) (t : Nat) (st : TaskState) :
    TableOf tasks (k.setState t st) where
  count := h.count
  cpuDec := h.cpuDec
  id := fun u => by rw [Kernel.setState_id, h.id]
  cpuInfo := fun u => by rw [Kernel.setState_cpuInfo, h.cpuInfo]
  counter := fun u => by rw [Kernel.setState_counter, h.counter]

section Step

variable (h : Inv smp tasks s) (hsmp : 0 < smp)
include h hsmp

/-- The statements of core 0 before the shared part, one after the other. -/
theorem Inv.primaryAdvance (hold : (s.pc 0).shared = false) :
    ∃ s', State.advance smp tasks s 0 = some s' ∧ Inv smp tasks s' := by
  have hprim := h.primary
  unfold State.advance
  cases hp : s.pc 0 with
  | off | secondKernelMain =>
    rw [hp] at hprim
    exact hprim.elim
  | kernelMain =>
    rw [hp] at hprim
    -- the lock is still free: every other core is off
    have hfree : s.lock = none := by
      cases hl : s.lock with
      | none => rfl
      | some d =>
        have hd := h.counting.holder d hl
        have hholds := (h.counting.held d hd).mpr hl
        by_cases hd0 : d = 0
        · rw [hd0, hp] at hholds
          cases hholds
        · rw [h.alone hp d hd0] at hholds
          cases hholds
    refine ⟨_, rfl, h.primaryStep hsmp hold rfl nofun rfl rfl hfree.symm rfl ?_⟩
    exact ⟨hsmp, hprim, fun j hj => absurd hj (Nat.not_lt_zero j), nofun⟩
  | threadInfoInit i l =>
    rw [hp] at hprim
    obtain ⟨hi, hk, hdone, hcpu⟩ := hprim
    cases l with
    | memset =>
      refine ⟨_, rfl, h.primaryStep hsmp hold rfl nofun rfl rfl rfl rfl ?_⟩
      exact ⟨hi, hk, fun j hj => (hdone j hj).update (by omega) _, nofun⟩
    | cpu =>
      refine ⟨_, rfl, h.primaryStep hsmp hold rfl nofun rfl rfl rfl rfl ?_⟩
      refine ⟨hi, hk, fun j hj => (hdone j hj).update (by omega) _, fun _ => ?_⟩
      simp [State.goto, State.setInfo]
    | flags =>
      have hself : Done (s.setInfo i { s.info i with flags := 0 }).info i := by
        simp [Done, State.setInfo, hcpu rfl]
      have hall : ∀ j < i + 1, Done (s.setInfo i { s.info i with flags := 0 }).info j := by
        intro j hj
        rcases Nat.lt_succ_iff_lt_or_eq.mp hj with hlt | rfl
        · exact (hdone j hlt).update (by omega) _
        · exact hself
      refine ⟨_, rfl, ?_⟩
      unfold State.nextCpu
      split
      · rename_i hnext
        exact h.primaryStep hsmp hold rfl nofun rfl rfl rfl rfl ⟨hnext, hk, hall⟩
      · refine h.primaryStep hsmp hold rfl nofun rfl rfl rfl rfl ⟨hk, fun j hj => hall j (by omega)⟩
  | cpuOn i =>
    rw [hp] at hprim
    obtain ⟨hi, hk, hdone⟩ := hprim
    obtain ⟨hon, hpc0⟩ := h.powerOn hi (by rw [hp]; nofun)
    refine ⟨_, rfl, hon.primaryStep hsmp (by rw [hpc0]; exact hold) rfl nofun rfl rfl rfl rfl ?_⟩
    have hinfo : (s.powerOn i).info = s.info ∧ (s.powerOn i).kernel = s.kernel := by
      unfold State.powerOn
      split <;> exact ⟨rfl, rfl⟩
    show i < smp ∧ (s.powerOn i).kernel = Kernel.bss ∧ ∀ j < i, Done (s.powerOn i).info j
    rw [hinfo.1, hinfo.2]
    exact ⟨hi, hk, hdone⟩
  | delay i =>
    rw [hp] at hprim
    obtain ⟨hi, hk, hdone⟩ := hprim
    exact ⟨_, rfl, h.primaryStep hsmp hold rfl nofun rfl rfl rfl rfl ⟨hi, hk, hdone, nofun⟩⟩
  | mainEntry =>
    rw [hp] at hprim
    exact ⟨_, rfl, h.primaryStep hsmp hold rfl nofun rfl rfl rfl rfl hprim⟩
  | scheduleInit =>
    rw [hp] at hprim
    refine ⟨_, rfl, h.primaryStep hsmp hold rfl nofun rfl rfl rfl rfl ⟨hprim.2, [], rfl, ?_⟩⟩
    show s.kernel.scheduleInit = _
    rw [hprim.1]
    rfl
  | createTask rest =>
    rw [hp] at hprim
    obtain ⟨hdone, before, htasks, hk⟩ := hprim
    cases rest with
    | nil =>
      rw [List.append_nil] at htasks
      refine ⟨_, rfl, h.primaryStep hsmp hold rfl nofun rfl rfl rfl rfl ⟨hdone, ?_⟩⟩
      show TableOf tasks s.kernel
      rw [hk, htasks]
      exact ⟨rfl, rfl, fun _ => rfl, fun _ => rfl, fun _ => rfl⟩
    | cons p rest =>
      refine ⟨_, rfl, h.primaryStep hsmp hold rfl nofun rfl rfl rfl rfl
        ⟨hdone, before ++ [p], by simp [htasks], ?_⟩⟩
      show s.kernel.createTask p.1 p.2 = _
      rw [hk]
      simp [Smp.handoff, Kernel.createTasks]
  | lockInited | loadInited | storeInited | unlockInited | waitInited | lockPrint | loadCpu
  | storeCurrent | setRunning | ready =>
    rw [hp] at hold
    cases hold

/-- The statements of the shared part on any core. The last two touch the core's own
`thread_info` and the state of a task, when core 0 is known to be done. -/
theorem Inv.sharedAdvance (hc : c < smp) (hold : (s.pc c).shared = true) {s' : State}
    (hs : State.advance smp tasks s c = some s') : Inv smp tasks s' := by
  have hcount := h.counting
  unfold State.advance at hs
  cases hp : s.pc c with
  | off | kernelMain | threadInfoInit | cpuOn | delay | secondKernelMain | mainEntry | scheduleInit
  | createTask =>
    rw [hp] at hold
    cases hold
  | lockInited =>
    simp only [hp] at hs
    split at hs
    · rename_i hfree
      cases hs
      rw [hfree] at hcount
      exact h.sharedStep hold rfl rfl rfl rfl (hcount.acquire hc hp) (local_of_not_passed rfl)
    · cases hs
      exact h
  | loadInited =>
    simp only [hp] at hs
    cases hs
    refine h.sharedStep hold rfl rfl rfl rfl ?_ (local_of_not_passed rfl)
    refine hcount.goto hc (by rw [hp]; rfl) (by rw [hp]; rfl) ?_ nofun
    intro m hm
    exact (Pc.storeInited.inj hm).symm
  | storeInited m =>
    simp only [hp] at hs
    cases hs
    exact h.sharedStep hold rfl rfl rfl rfl (hcount.store hc hp) (local_of_not_passed rfl)
  | unlockInited =>
    simp only [hp] at hs
    cases hs
    exact h.sharedStep hold rfl rfl rfl rfl (hcount.release hc hp) (local_of_not_passed rfl)
  | waitInited =>
    simp only [hp] at hs
    split at hs
    · rename_i hfull
      cases hs
      refine h.sharedStep hold rfl rfl rfl rfl ?_ ⟨nofun, nofun⟩
      exact hcount.goto hc (by rw [hp]; rfl) (by rw [hp]; rfl) nofun (fun _ => hfull)
    · cases hs
      exact h
  | lockPrint =>
    have hpass : (s.pc c).passed = true := by rw [hp]; rfl
    simp only [hp] at hs
    split at hs
    · cases hs
      exact h.passedStep hsmp hc hpass rfl rfl rfl rfl (fun _ _ => rfl)
        (fun hd => ⟨hd, nofun, nofun⟩) id
    · cases hs
      exact h
  | loadCpu =>
    have hpass : (s.pc c).passed = true := by rw [hp]; rfl
    simp only [hp] at hs
    cases hs
    refine h.passedStep hsmp hc hpass rfl rfl rfl rfl (fun _ _ => rfl)
      (fun hd => ⟨hd, ?_, nofun⟩) id
    intro m hm
    rw [← Pc.storeCurrent.inj hm]
    exact hd.1
  | storeCurrent m =>
    have hpass : (s.pc c).passed = true := by rw [hp]; rfl
    have hm : m = c := (h.own c hc).1 m hp
    simp only [hp] at hs
    cases hs
    refine h.passedStep hsmp hc hpass rfl rfl rfl rfl
      (fun d hd => Function.update_of_ne hd _ _) (fun hd => ⟨?_, nofun, fun _ => ?_⟩) id
    · simpa [Done, State.goto, State.setInfo] using hd
    · simp [State.goto, State.setInfo, hm]
  | setRunning =>
    have hpass : (s.pc c).passed = true := by rw [hp]; rfl
    have hstored := (h.own c hc).2 (by rw [hp]; rfl)
    simp only [hp] at hs
    split at hs
    · cases hs
      exact h.passedStep hsmp hc hpass rfl rfl rfl rfl (fun _ _ => rfl)
        (fun hd => ⟨hd, nofun, fun _ => hstored⟩) (fun ht => ht.setState _ _)
    · cases hs
  | ready =>
    simp only [hp] at hs
    cases hs
    exact h

/-- One step of the machine. -/
theorem Inv.step {e : Event} {s' : State} (hs : State.step smp tasks s e = some s') :
    Inv smp tasks s' := by
  cases e with
  | cpuOnFails =>
    simp only [State.step] at hs
    split at hs
    · rename_i i hp
      cases hs
      have hprim := h.primary
      rw [hp] at hprim
      exact h.primaryStep hsmp (by rw [hp]; rfl) rfl nofun rfl rfl rfl rfl hprim
    · cases hs
      exact h
  | advance c =>
    simp only [State.step] at hs
    split at hs
    case isFalse =>
      cases hs
      exact h
    rename_i hc
    cases hsh : (s.pc c).shared with
    | true => exact h.sharedAdvance hsmp hc hsh hs
    | false =>
      by_cases hc0 : c = 0
      · subst hc0
        obtain ⟨t, ht, hinv⟩ := h.primaryAdvance hsmp hsh
        rw [ht] at hs
        cases hs
        exact hinv
      -- a core that has left its reset state was started by core 0
      have halone : s.pc c ≠ .off → s.pc 0 ≠ .kernelMain := by
        intro hon hkm
        exact hon (h.alone hkm c hc0)
      rcases h.secondary c hc hc0 with hp | hp | hp | hp
      · simp only [State.advance, hp] at hs
        cases hs
        exact h
      · simp only [State.advance, hp] at hs
        cases hs
        exact h.secondaryStep hc0 hc (halone (by rw [hp]; nofun)) (by rw [hp]; rfl) (by rw [hp]; rfl)
          (.inr (.inl rfl))
      · simp only [State.advance, hp, hc0, ↓reduceIte] at hs
        cases hs
        exact h.secondaryStep hc0 hc (halone (by rw [hp]; nofun)) (by rw [hp]; rfl) (by rw [hp]; rfl)
          (.inr (.inr rfl))
      · rw [hsh] at hp
        cases hp

end Step

theorem inv_init (info : Nat → ThreadInfo) : Inv smp tasks (State.init info) := by
  have hoff : ∀ c, c ≠ 0 → (State.init info).pc c = .off := by
    intro c hc
    simp [State.init, hc]
  have hplain : ∀ c, ((State.init info).pc c).counted = false ∧
      ((State.init info).pc c).holding = false ∧ ((State.init info).pc c).passed = false := by
    intro c
    by_cases hc : c = 0
    · rw [hc]
      exact ⟨rfl, rfl, rfl⟩
    · rw [hoff c hc]
      exact ⟨rfl, rfl, rfl⟩
  refine ⟨⟨?_, nofun, ?_, ?_, ?_⟩, rfl, ?_, fun _ => hoff, fun c _ => local_of_not_passed (hplain c).2.2⟩
  · have hempty : arrived smp (State.init info).pc = ∅ := by
      apply Finset.filter_false_of_mem
      intro c _
      rw [(hplain c).1]
      nofun
    rw [hempty]
    rfl
  · intro c _
    rw [(hplain c).2.1]
    simp [State.init]
  · intro c _ m hm
    have hh := (hplain c).2.1
    rw [hm] at hh
    cases hh
  · intro c _ hp
    rw [(hplain c).2.2] at hp
    cases hp
  · intro c _ hc
    exact .inl (hoff c hc)

/-- The counter never goes back. -/
theorem Inv.inited_mono (h : Inv smp tasks s) {e : Event} {s' : State}
    (hs : State.step smp tasks s e = some s') : s.initedCpuNum ≤ s'.initedCpuNum := by
  cases e with
  | cpuOnFails =>
    simp only [State.step] at hs
    split at hs <;> cases hs <;> exact Nat.le_refl _
  | advance c =>
    simp only [State.step] at hs
    split at hs
    case isFalse =>
      cases hs
      exact Nat.le_refl _
    rename_i hc
    unfold State.advance at hs
    cases hp : s.pc c with
    | storeInited m =>
      simp only [hp] at hs
      cases hs
      have hm := h.counting.temp c hc m hp
      show s.initedCpuNum ≤ m + 1
      omega
    | cpuOn i =>
      simp only [hp] at hs
      cases hs
      unfold State.powerOn
      split <;> exact Nat.le_refl _
    | threadInfoInit i l =>
      cases l <;> simp only [hp] at hs <;> cases hs <;> exact Nat.le_refl _
    | createTask rest =>
      cases rest <;> simp only [hp] at hs <;> cases hs <;> exact Nat.le_refl _
    | lockInited | waitInited | lockPrint | setRunning =>
      simp only [hp] at hs
      split at hs <;> cases hs <;> exact Nat.le_refl _
    | off | kernelMain | delay | secondKernelMain | mainEntry | scheduleInit | loadInited
    | unlockInited | loadCpu | storeCurrent | ready =>
      simp only [hp] at hs
      cases hs
      exact Nat.le_refl _

/-- Core 0 is past its part once the counter is full, and stays there. -/
theorem Inv.counted_after (h : Inv smp tasks s) (hsmp : 0 < smp) (hfull : s.initedCpuNum = smp)
    (es : List Event) {t : State} (ht : Lib.run (State.step smp tasks) s es = some t) :
    (t.pc 0).counted = true := by
  have hkeep : Inv smp tasks t ∧ t.initedCpuNum = smp := by
    refine Lib.run_always (I := fun s => Inv smp tasks s ∧ s.initedCpuNum = smp) ?_ es s t
      ⟨h, hfull⟩ ht
    intro u e u' ⟨hu, hn⟩ he
    have hu' := hu.step hsmp he
    have hmono := hu.inited_mono he
    have hle := hu'.counting.le
    exact ⟨hu', by omega⟩
  exact hkeep.1.counting.all hkeep.2 hsmp

/-- The boot barrier, for every number of cores and every interleaving. -/
theorem boot_barrier (smp : Nat) (hsmp : 0 < smp) (tasks : List (Word × Word))
    (info : Nat → ThreadInfo) (es : List Event) (s : State)
    (hs : Lib.run (State.step smp tasks) (State.init info) es = some s) :
    s.initedCpuNum ≤ smp ∧
    (∀ c < smp, (s.pc c).passed = true →
      (s.pc 0).counted = true ∧ (∀ i < smp, Done s.info i) ∧ TableOf tasks s.kernel) ∧
    (∀ c < smp, (s.pc c).stored = true → (s.info c).currentThread = some c ∧
      ∀ fs t, Lib.run (State.step smp tasks) s fs = some t → ∀ i l, t.pc 0 ≠ .threadInfoInit i l) ∧
    (∀ c < smp, (s.pc c).usesInfo = true → Done s.info c) := by
  have h : Inv smp tasks s :=
    Lib.run_always (fun _ _ _ hu he => hu.step hsmp he) es _ s (inv_init info) hs
  have hpassed : ∀ c < smp, (s.pc c).passed = true →
      (s.pc 0).counted = true ∧ (∀ i < smp, Done s.info i) ∧ TableOf tasks s.kernel := by
    intro c hc hp
    have h0 := h.counting.all (h.counting.passed c hc hp) hsmp
    exact ⟨h0, (primary_shared (shared_of_counted h0)).mp h.primary⟩
  refine ⟨h.counting.le, hpassed, ?_, ?_⟩
  · intro c hc hst
    have hp : (s.pc c).passed = true := by
      cases hpc : s.pc c <;> rw [hpc] at hst <;> first | rfl | cases hst
    refine ⟨(h.own c hc).2 hst, ?_⟩
    intro fs t ht i l hpc
    have h0 := h.counted_after hsmp (h.counting.passed c hc hp) fs ht
    rw [hpc] at h0
    cases h0
  · intro c hc hu
    have hp : (s.pc c).passed = true := by
      cases hpc : s.pc c <;> rw [hpc] at hu <;> first | rfl | cases hu
    exact (hpassed c hc hp).2.1 c hc

/-- Two cores and the tasks of `main_entry`: core 1 is counted while core 0 still
initialises, and both end in `schedule_init_local`. -/
theorem boot_barrier_two :
    ∃ s, Lib.run (State.step 2 [(0x80000000, 0x80004000), (0x90000000, 0x90004000)])
        (State.init (fun _ => ⟨7, 7, some 7⟩))
        (List.replicate 5 (.advance 0) ++ List.replicate 7 (.advance 1) ++
          List.replicate 14 (.advance 0) ++ List.replicate 5 (.advance 1)) = some s ∧
      (s.pc 1).stored = true ∧ (s.info 1).currentThread = some 1 := by
  have hst : (Lib.run (State.step 2 [(0x80000000, 0x80004000), (0x90000000, 0x90004000)])
        (State.init (fun _ => ⟨7, 7, some 7⟩))
        (List.replicate 5 (.advance 0) ++ List.replicate 7 (.advance 1) ++
          List.replicate 14 (.advance 0) ++ List.replicate 5 (.advance 1))).map
      (fun s => (s.pc 1).stored) = some true := by decide +kernel
  obtain ⟨s, hs, hst⟩ := Option.map_eq_some_iff.mp hst
  exact ⟨s, hs, hst, ((boot_barrier 2 (by decide) _ _ _ s hs).2.2.1 1 (by decide) hst).1⟩

end Dmos.Proofs.Barrier
