import Dmos.Proofs.PackedTable

namespace Dmos.Proofs.Yield
open Lib Schedule TaskTable PackedTable

/-- Only the state and counter of `prev` and the state of `next` differ. -/
structure TableKept (m m' : Words) (prev next : Nat) : Prop where
  others : ∀ i < maxTasks, i ≠ prev → i ≠ next → m'.tcb i = m.tcb i
  next : next < maxTasks → next ≠ prev →
    m'.tcb next = { m.tcb next with state := (m'.tcb next).state }
  prev : prev < maxTasks →
    m'.tcb prev = { m.tcb prev with
      state := (m'.tcb prev).state, counter := (m'.tcb prev).counter }

/-- The registers of the yielding task are what the table already holds where they are
stored, the state and counter of `prev` and the state of `next` aside; and a search
that found `next` marks no third task. -/
structure Coincides (m : Words) (found : Bool) (id prev next : Nat) (regs : Saved) : Prop where
  stored : ∀ k : Fin 14, 6 * prev + k < 6 * maxTasks → k ≠ 2 → 6 * prev + k ≠ 6 * next + 2 →
    regs k = m (6 * prev + k)
  counter : next < maxTasks → next = prev + 1 → hi (regs 8) = hi (m (6 * next + 2))
  marked : found = true → id ≠ prev → id ≠ next → id ≠ prev + 1 → lo (m (6 * id + 2)) = waiting

/-- The doublewords at `next` hold `r`, but for those that the call itself stores:
the registers of `prev` that lie there must be those of `r`, and so must the states
that a search that found `next` marks. -/
structure Restorable (m : Words) (found : Bool) (id prev next : Nat) (regs r : Saved) : Prop where
  overlapped : ∀ k j : Fin 14, 6 * next + k = 6 * prev + j → regs j = r k
  cleared : found = true → (∀ j : Fin 14, 6 * next + 2 ≠ 6 * prev + j) →
    hi (m (6 * next + 2)) = hi (r 2) ∧ running = lo (r 2)
  marked : found = true → id = next + 1 → (∀ j : Fin 14, 6 * next + 8 ≠ 6 * prev + j) →
    hi (m (6 * next + 8)) = hi (r 8) ∧ waiting = lo (r 8)
  others : ∀ k : Fin 14, (∀ j : Fin 14, 6 * next + k ≠ 6 * prev + j) →
    (found = true → k ≠ 2 ∧ (k = 8 → id ≠ next + 1)) → m (6 * next + k) = r k

/-- The table that a call of `schedule` from `prev` to `next` leaves. -/
def yielded (m : Words) (found : Bool) (id prev next : Nat) (regs : Saved) : Words :=
  let m := m.setCounter prev 0
  let m := if found then (m.setState id waiting).setState next running else m
  m.storeContext prev regs

section Table

variable {m m' : Words} {found : Bool} {id prev next w : Nat} {regs : Saved}

/-- An entry up to its state and counter. -/
theorem tcb_eq_but_counter {i : Nat} :
    m'.tcb i = { m.tcb i with state := (m'.tcb i).state, counter := (m'.tcb i).counter } ↔
      ∀ k < 6, k ≠ 2 → m' (6 * i + k) = m (6 * i + k) := by
  have hupd : { m.tcb i with state := (m'.tcb i).state, counter := (m'.tcb i).counter } =
      Words.tcb (Function.update m (6 * i + 2) (m' (6 * i + 2))) i := by
    simp [Words.tcb]
  rw [hupd, Words.tcb_eq_iff]
  constructor
  · intro h k hk hne
    rw [h k hk, Function.update_of_ne (by omega)]
  · intro h k hk
    by_cases hne : k = 2
    · subst hne
      rw [Function.update_self]
    · rw [h k hk hne, Function.update_of_ne (by omega)]

/-- An entry up to its state. -/
theorem tcb_eq_but_state {i : Nat} :
    m'.tcb i = { m.tcb i with state := (m'.tcb i).state } ↔
      (∀ k < 6, k ≠ 2 → m' (6 * i + k) = m (6 * i + k)) ∧
        hi (m' (6 * i + 2)) = hi (m (6 * i + 2)) := by
  rw [← tcb_eq_but_counter]
  simp only [PackedTcb.ext_iff, Words.tcb]
  tauto

theorem tableKept_words : TableKept m m' prev next ↔
    (∀ w < 6 * maxTasks, w ≠ 6 * prev + 2 → w ≠ 6 * next + 2 → m' w = m w) ∧
    (next < maxTasks → next ≠ prev → hi (m' (6 * next + 2)) = hi (m (6 * next + 2))) := by
  constructor
  · intro h
    refine ⟨fun w hw hp hn => ?_, fun hlt hne => (tcb_eq_but_state.mp (h.next hlt hne)).2⟩
    obtain ⟨i, k, rfl, hk⟩ : ∃ i k, w = 6 * i + k ∧ k < 6 := ⟨w / 6, w % 6, by omega, by omega⟩
    by_cases hip : i = prev
    · subst hip
      exact tcb_eq_but_counter.mp (h.prev (by omega)) k hk (by omega)
    by_cases hin : i = next
    · subst hin
      exact (tcb_eq_but_state.mp (h.next (by omega) hip)).1 k hk (by omega)
    · exact Words.tcb_eq_iff.mp (h.others i (by omega) hip hin) k hk
  · rintro ⟨hw, hhi⟩
    constructor
    · intro i hi hip hin
      exact Words.tcb_eq_iff.mpr (fun k hk => hw _ (by omega) (by omega) (by omega))
    · intro hlt hne
      exact tcb_eq_but_state.mpr
        ⟨fun k hk hk2 => hw _ (by omega) (by omega) (by omega), hhi hlt hne⟩
    · intro hlt
      refine tcb_eq_but_counter.mpr (fun k hk hk2 => ?_)
      exact hw _ (by omega) (by omega) (by omega)

theorem yielded_stored (k : Fin 14) : yielded m found id prev next regs (6 * prev + k) = regs k :=
  Words.storeContext_stored _ _ regs k

theorem yielded_next (hf : found = true) (hw : ∀ j : Fin 14, 6 * next + 2 ≠ 6 * prev + j) :
    yielded m found id prev next regs (6 * next + 2) = ofHalves (hi (m (6 * next + 2))) running := by
  rw [yielded, Words.storeContext_of_not _ _ regs hw, if_pos hf, Words.setState_self,
    Words.hi_setState, Words.setCounter_of_ne _ _ (hw 2)]

theorem yielded_marked (hf : found = true) (hne : id ≠ next)
    (hw : ∀ j : Fin 14, 6 * id + 2 ≠ 6 * prev + j) :
    yielded m found id prev next regs (6 * id + 2) = ofHalves (hi (m (6 * id + 2))) waiting := by
  have hnext : 6 * id + 2 ≠ 6 * next + 2 := by omega
  rw [yielded, Words.storeContext_of_not _ _ regs hw, if_pos hf, Words.setState_of_ne _ _ hnext,
    Words.setState_self, Words.setCounter_of_ne _ _ (hw 2)]

theorem yielded_other (hw : ∀ j : Fin 14, w ≠ 6 * prev + j)
    (hf : found = true → w ≠ 6 * next + 2 ∧ w ≠ 6 * id + 2) :
    yielded m found id prev next regs w = m w := by
  rw [yielded, Words.storeContext_of_not _ _ regs hw]
  split
  · rename_i hfound
    obtain ⟨hnext, hid⟩ := hf hfound
    rw [Words.setState_of_ne _ _ hnext, Words.setState_of_ne _ _ hid,
      Words.setCounter_of_ne _ _ (hw 2)]
  · exact Words.setCounter_of_ne _ _ (hw 2) 0

/-- A doubleword of the state whose two halves are known. -/
theorem ofHalves_eq_iff {h l : BitVec 32} {u : Word} : ofHalves h l = u ↔ h = hi u ∧ l = lo u := by
  rw [halves_ext, hi_ofHalves, lo_ofHalves]

/-- The state and counter of the entry after `prev` get `x27`. -/
theorem yielded_succ (he : next = prev + 1) :
    yielded m found id prev next regs (6 * next + 2) = regs 8 := by
  have hslot : 6 * next + 2 = 6 * prev + (8 : Fin 14).val := by
    rw [he]
    simp
    omega
  rw [hslot, yielded_stored]

/-- The table is kept exactly when the registers coincide with it. -/
theorem tableKept_iff (hid : found = true → id < maxTasks) :
    TableKept m (yielded m found id prev next regs) prev next ↔
      Coincides m found id prev next regs := by
  rw [tableKept_words]
  constructor
  · rintro ⟨hw, hhi⟩
    constructor
    · intro k hk h2 hn
      have hne : 6 * prev + k.val ≠ 6 * prev + 2 := by
        intro he
        exact h2 (Fin.ext (by simpa using he))
      have hkept := hw _ hk hne hn
      rwa [yielded_stored] at hkept
    · intro hlt he
      have hkept := hhi hlt (by omega)
      rwa [yielded_succ he] at hkept
    · intro hf hp hn hp1
      have hlt := hid hf
      have hout : ∀ j : Fin 14, 6 * id + 2 ≠ 6 * prev + j := fun j => by omega
      have hkept := hw (6 * id + 2) (by omega) (by omega) (by omega)
      rw [yielded_marked hf hn hout, ofHalves_eq_iff] at hkept
      exact hkept.2.symm
  · intro h
    constructor
    · intro w hw hp hn
      by_cases hst : ∃ j : Fin 14, w = 6 * prev + j
      · obtain ⟨j, rfl⟩ := hst
        rw [yielded_stored]
        refine h.stored j hw ?_ hn
        rintro rfl
        exact hp rfl
      have hout : ∀ j : Fin 14, w ≠ 6 * prev + j := fun j he => hst ⟨j, he⟩
      by_cases hmark : found = true ∧ w = 6 * id + 2
      · obtain ⟨hf, rfl⟩ := hmark
        have hp1 : id ≠ prev + 1 := by
          rintro rfl
          exact hout 8 (by simp; omega)
        rw [yielded_marked hf (by omega) hout, ofHalves_eq_iff]
        exact ⟨rfl, (h.marked hf (by omega) (by omega) hp1).symm⟩
      · exact yielded_other hout (fun hf => ⟨hn, fun he => hmark ⟨hf, he⟩⟩)
    · intro hlt hne
      by_cases he : next = prev + 1
      · rw [yielded_succ he]
        exact h.counter hlt he
      have hout : ∀ j : Fin 14, 6 * next + 2 ≠ 6 * prev + j := fun j => by omega
      by_cases hf : found = true
      · rw [yielded_next hf hout, hi_ofHalves]
      · rw [yielded_other hout (fun h => absurd h hf)]

/-- The registers of `next` come back exactly when what lies there is restorable. -/
theorem loads_iff {r : Saved} : (yielded m found id prev next regs).loadContext next = r ↔
    Restorable m found id prev next regs r := by
  have hmarked : found = true → id = next + 1 → (∀ j : Fin 14, 6 * next + 8 ≠ 6 * prev + j) →
      yielded m found id prev next regs (6 * next + 8) =
        ofHalves (hi (m (6 * next + 8))) waiting := by
    intro hf he hout
    have hthird : 6 * next + 8 = 6 * id + 2 := by omega
    rw [hthird] at hout ⊢
    exact yielded_marked hf (by omega) hout
  -- a state that is marked lies in the third doubleword of its entry
  have hplain : ∀ k : Fin 14, (found = true → k ≠ 2 ∧ (k = 8 → id ≠ next + 1)) →
      (found = true → 6 * next + k ≠ 6 * next + 2 ∧ 6 * next + k ≠ 6 * id + 2) := by
    intro k hk hf
    obtain ⟨h2, h8⟩ := hk hf
    have hk2 : k.val ≠ 2 := fun he => h2 (Fin.ext he)
    have hk8 : k.val = 8 → id ≠ next + 1 := fun he => h8 (Fin.ext he)
    omega
  rw [funext_iff]
  constructor
  · intro h
    constructor
    · intro k j he
      have hk := h k
      rwa [Words.loadContext, he, yielded_stored] at hk
    · intro hf hout
      exact ofHalves_eq_iff.mp ((yielded_next hf hout).symm.trans (h 2))
    · intro hf he hout
      exact ofHalves_eq_iff.mp ((hmarked hf he hout).symm.trans (h 8))
    · intro k hout hmark
      rw [← h k]
      exact (yielded_other hout (hplain k hmark)).symm
  · intro h k
    by_cases hst : ∃ j : Fin 14, 6 * next + k = 6 * prev + j
    · obtain ⟨j, hj⟩ := hst
      rw [Words.loadContext, hj, yielded_stored]
      exact h.overlapped k j hj
    have hout : ∀ j : Fin 14, 6 * next + k ≠ 6 * prev + j := fun j he => hst ⟨j, he⟩
    by_cases hclear : found = true ∧ k = 2
    · obtain ⟨hf, rfl⟩ := hclear
      exact (yielded_next hf hout).trans (ofHalves_eq_iff.mpr (h.cleared hf hout))
    by_cases hmark : found = true ∧ k = 8 ∧ id = next + 1
    · obtain ⟨hf, rfl, hid⟩ := hmark
      exact (hmarked hf hid hout).trans (ofHalves_eq_iff.mpr (h.marked hf hid hout))
    · have hrest : found = true → k ≠ 2 ∧ (k = 8 → id ≠ next + 1) := fun hf =>
        ⟨fun he => hclear ⟨hf, he⟩, fun he hid => hmark ⟨hf, he, hid⟩⟩
      exact (yielded_other hout (hplain k hrest)).trans (h.others k hout hrest)

/-- A task that the search found is not restored from doublewords that nobody touched
since it yielded: it was found because its state, the lower half of `x21`, is not
`RUNNING`, and being found clears it. -/
theorem untouched_not_restored {r : Saved} (hstate : (m.tcb next).state ≠ running)
    (hm : m (6 * next + 2) = r 2) (hw : ∀ j : Fin 14, 6 * next + 2 ≠ 6 * prev + j) :
    ¬ Restorable m true id prev next regs r := by
  intro h
  have hlo : running = lo (r 2) := (h.cleared rfl hw).2
  rw [← hm] at hlo
  exact hstate hlo.symm

end Table

section Call

variable (cpuAt : Word → Option Nat) {smp c prev next : Nat} {found : Bool} {p : Packed}
  (regs : Saved)

/-- Without a search, or with nothing to search, only the counter is written. -/
theorem schedule_returns (hcur : p.current c = some prev)
    (h : p.taskCount.toNat = smp ∨ p.taskCount.toNat ≤ 1) :
    p.schedule cpuAt smp c regs = some ({ p with words := p.words.setCounter prev 0 }, none) := by
  simp only [Packed.schedule, hcur, Option.bind_eq_bind, Option.bind_some, Packed._schedule]
  by_cases hsmp : p.taskCount.toNat = smp
  · rw [if_pos hsmp]
  · have hone : p.taskCount.toNat ≤ 1 := h.resolve_left hsmp
    have hscan : ∀ m : Words, ∀ id, m.scan p.taskCount.toNat id = (2 ^ 32 - 1, false) := by
      intro m id
      rw [kernel_scan cpuAt m p.cpuDec]
      exact Scan.scan_none _ _ hone
    rw [if_neg hsmp]
    simp [Packed.criticalSection, hscan]

section Search

variable (hcur : p.current c = some prev) (hsmp : p.taskCount.toNat ≠ smp)
  (hscan : p.words.scan p.taskCount.toNat (p.words.tcb prev).id.toNat = (next, found))
include hscan

/-- The critical section, entered with the counter already zero. -/
theorem criticalSection_zeroed :
    Packed.criticalSection { p with words := p.words.setCounter prev 0 } c prev =
      if found = true then
        if (p.words.tcb prev).id.toNat < maxTasks then
          some ({ p with
            words := ((p.words.setCounter prev 0).setState (p.words.tcb prev).id.toNat
              waiting).setState next running
            current := Function.update p.current c (some next) }, next)
        else none
      else some ({ p with words := p.words.setCounter prev 0 }, next) := by
  have hid : ((p.words.setCounter prev 0).tcb prev).id = (p.words.tcb prev).id := by
    rw [Words.tcb_setCounter, if_pos rfl]
  have hstate : ∀ i, ((p.words.setCounter prev 0).tcb i).state = (p.words.tcb i).state := by
    intro i
    rw [Words.tcb_setCounter]
    split
    · subst i
      rfl
    · rfl
  simp only [Packed.criticalSection, hid, Words.scan_congr hstate, hscan]
  cases found <;> rfl

include hcur hsmp

theorem schedule_faults (hf : found = true) (hid : ¬ (p.words.tcb prev).id.toNat < maxTasks) :
    p.schedule cpuAt smp c regs = none := by
  have hcs := criticalSection_zeroed (c := c) hscan
  rw [if_pos hf, if_neg hid] at hcs
  simp only [Packed.schedule, hcur, Option.bind_eq_bind, Option.bind_some, Packed._schedule, hcs]
  rw [if_neg hsmp]
  rfl

theorem schedule_switches (hcount : 1 < p.taskCount.toNat)
    (hid : found = true → (p.words.tcb prev).id.toNat < maxTasks) :
    ∃ p', p'.words = yielded p.words found (p.words.tcb prev).id.toNat prev next regs ∧
      p.schedule cpuAt smp c regs = some (p', some (next, p'.words.loadContext next)) := by
  have hnext : next ≠ 2 ^ 32 - 1 := by
    have hlt := Scan.scan_lt (kernel cpuAt p.words p.cpuDec p.taskCount.toNat)
      (p.words.tcb prev).id.toNat hcount
    rw [← kernel_scan, hscan] at hlt
    have hmax := p.taskCount.isLt
    simp only [kernel] at hlt
    omega
  have hcs := criticalSection_zeroed (c := c) hscan
  simp only [Packed.schedule, hcur, Option.bind_eq_bind, Option.bind_some, Packed._schedule]
  rw [if_neg hsmp]
  cases hf : found with
  | false =>
    rw [hf, if_neg Bool.false_ne_true] at hcs
    rw [hcs]
    simp only [Option.bind_some]
    rw [if_neg hnext]
    exact ⟨_, rfl, rfl⟩
  | true =>
    rw [hf, if_pos rfl, if_pos (hid hf)] at hcs
    rw [hcs]
    simp only [Option.bind_some]
    rw [if_neg hnext]
    exact ⟨_, rfl, rfl⟩

end Search

end Call

/-- The machine with the registers of each task that yielded, as they were then, until
`switch_context` resumes it. -/
structure Traced where
  packed : Packed
  saved : Nat → Option Saved

namespace Traced

variable (cpuAt : Word → Option Nat) (smp : Nat)

def savedAfter (t : Traced) : Call → Nat → Option Saved
  | .schedule c regs =>
    match t.packed.current c, t.packed.schedule cpuAt smp c regs with
    | some prev, some (_, some (next, _)) =>
      if c < smp then Function.update (Function.update t.saved prev (some regs)) next none
      else t.saved
    | _, _ => t.saved
  | _ => t.saved

def step (cpuAddr : Nat → Word) (t : Traced) (e : Call) : Option Traced :=
  (t.packed.step cpuAt cpuAddr smp e).map (fun p => ⟨p, t.savedAfter cpuAt smp e⟩)

/-- What a call of `schedule` should do: it returns with the table kept, and a task
that it switches back in has the registers it yielded with. -/
def Preserves (t : Traced) : Call → Prop
  | .schedule c regs => ∀ prev, c < smp → t.packed.current c = some prev →
    ∃ p' switch, t.packed.schedule cpuAt smp c regs = some (p', switch) ∧
      match switch with
      | none => TableKept t.packed.words p'.words prev prev
      | some (next, loaded) => TableKept t.packed.words p'.words prev next ∧
        ∀ r, Function.update t.saved prev (some regs) next = some r → loaded = r
  | _ => True

/-- The condition on the table and the registers before the call. -/
def Coherent (t : Traced) : Call → Prop
  | .schedule c regs => ∀ prev next found, c < smp → t.packed.current c = some prev →
    t.packed.taskCount.toNat ≠ smp → 1 < t.packed.taskCount.toNat →
    t.packed.words.scan t.packed.taskCount.toNat (t.packed.words.tcb prev).id.toNat =
      (next, found) →
    (found = true → (t.packed.words.tcb prev).id.toNat < maxTasks) ∧
    Coincides t.packed.words found (t.packed.words.tcb prev).id.toNat prev next regs ∧
    ∀ r, Function.update t.saved prev (some regs) next = some r →
      Restorable t.packed.words found (t.packed.words.tcb prev).id.toNat prev next regs r
  | _ => True

/-- The ghost state changes nothing. -/
theorem run_packed (cpuAddr : Nat → Word) (t : Traced) (es : List Call) :
    (run (step cpuAt smp cpuAddr) t es).map packed =
      run (Packed.step cpuAt cpuAddr smp) t.packed es := by
  refine run_map (fun s e => ?_) es t
  rw [step, Option.map_map]
  exact Option.map_id'

theorem preserves_iff (t : Traced) (e : Call) : t.Preserves cpuAt smp e ↔ t.Coherent smp e := by
  cases e with
  | createTask f st => exact Iff.rfl
  | timerTickSchedule c => exact Iff.rfl
  | schedule c regs =>
    constructor
    · intro h prev next found hc hcur hsmp hcount hscan
      obtain ⟨p', switch, hs, hkept⟩ := h prev hc hcur
      have hid : found = true → (t.packed.words.tcb prev).id.toNat < maxTasks := by
        intro hf
        by_contra hid
        rw [schedule_faults cpuAt regs hcur hsmp hscan hf hid] at hs
        cases hs
      obtain ⟨q, hq, hsw⟩ := schedule_switches cpuAt regs hcur hsmp hscan hcount hid
      rw [hsw] at hs
      obtain ⟨rfl, rfl⟩ := Prod.mk.inj (Option.some.inj hs)
      obtain ⟨htable, hregs⟩ := hkept
      rw [hq] at htable hregs
      exact ⟨hid, (tableKept_iff hid).mp htable, fun r hr => loads_iff.mp (hregs r hr)⟩
    · intro h prev hc hcur
      by_cases hreturn : t.packed.taskCount.toNat = smp ∨ t.packed.taskCount.toNat ≤ 1
      · refine ⟨_, _, schedule_returns cpuAt regs hcur hreturn, ?_⟩
        exact tableKept_words.mpr ⟨fun w _ hw _ => Words.setCounter_of_ne _ _ hw 0,
          fun _ hne => absurd rfl hne⟩
      · obtain ⟨hsmp, hcount⟩ := not_or.mp hreturn
        obtain ⟨hid, hcoin, hrest⟩ := h prev _ _ hc hcur hsmp (by omega) rfl
        obtain ⟨q, hq, hsw⟩ := schedule_switches cpuAt regs hcur hsmp rfl (by omega) hid
        refine ⟨q, _, hsw, ?_⟩
        rw [hq]
        exact ⟨(tableKept_iff hid).mpr hcoin, fun r hr => loads_iff.mpr (hrest r hr)⟩

end Traced

/-- From every table and along every sequence of calls, each `schedule` preserves the
table and the registers of the tasks it switches back in exactly when each finds the
table and the registers coherent. -/
theorem yield_preserves_iff (cpuAt : Word → Option Nat) (cpuAddr : Nat → Word) (smp : Nat)
    (p : Packed) (es : List Call) :
    Along (Traced.step cpuAt smp cpuAddr) (Traced.Preserves cpuAt smp) ⟨p, fun _ => none⟩ es ↔
      Along (Traced.step cpuAt smp cpuAddr) (Traced.Coherent smp) ⟨p, fun _ => none⟩ es :=
  along_congr (Traced.preserves_iff cpuAt smp) es _

section MainEntry

/-- `&g_cpu_dec[t]` -/
def cpuAddr (t : Nat) : Word := 0x40200000 + 296 * BitVec.ofNat 64 t

def cpuAt (w : Word) : Option Nat := (List.range maxTasks).find? (fun t => cpuAddr t == w)

/-- One core that runs the first of the two tasks of `main_entry`. -/
def mainEntry : Packed :=
  let p : Packed :=
    { words := fun w => if w % 6 = 3 then 0xffffffff00000000 else 0
      cpuDec := fun _ => ⟨TrapFrame.zero, none⟩
      taskCount := 0
      current := fun c => if c = 0 then some 0 else none }
  let p := p.createTask cpuAddr 0x80000000 0x80004000
  let p := p.createTask cpuAddr 0x90000000 0x90004000
  { p with words := p.words.setState 0 running }

/-- A yield whose registers happen to be what the table holds. -/
theorem yield_preserves_iff_coinciding :
    Along (Traced.step cpuAt 1 cpuAddr) (Traced.Preserves cpuAt 1) ⟨mainEntry, fun _ => none⟩
      [.schedule 0 (fun k => mainEntry.words k)] := by
  rw [yield_preserves_iff]
  refine ⟨?_, fun _ _ => trivial⟩
  intro prev next found _ hcur _ _ hscan
  obtain rfl : prev = 0 := by
    have h0 : mainEntry.current 0 = some 0 := by decide +kernel
    exact Option.some.inj (hcur.symm.trans h0)
  have hid : (mainEntry.words.tcb 0).id.toNat = 0 := by decide +kernel
  have h1 : mainEntry.words.scan mainEntry.taskCount.toNat (mainEntry.words.tcb 0).id.toNat =
      (1, true) := by decide +kernel
  obtain ⟨rfl, rfl⟩ := Prod.mk.inj (hscan.symm.trans h1)
  refine ⟨fun _ => by rw [hid]; decide, ⟨?_, ?_, ?_⟩, ?_⟩
  · intro k _ _ _
    rw [Nat.mul_zero, Nat.zero_add]
  · intro _ _
    rfl
  · intro _ hne
    exact absurd hid hne
  · intro r hr
    cases hr

/-- A task that yields with `0x100000001` in each register overwrites its own entry and
the next; resumed by the other task's yield it has lost the lower half of `x21`. -/
theorem yield_overwrites_table :
    (mainEntry.words.tcb 0).cpuInfo = cpuAddr 0 ∧
    (mainEntry.schedule cpuAt 1 0 (fun _ => 0x100000001)).map (fun r =>
      ((r.1.words.tcb 0).cpuInfo, (r.1.words.tcb 1).cpuInfo)) = some (0x100000001, 0x100000001) ∧
    ((mainEntry.schedule cpuAt 1 0 (fun _ => 0x100000001)).bind (fun r =>
      r.1.schedule cpuAt 1 0 (fun _ => 0x100000001))).bind (fun r =>
        r.2.map (fun s => (s.1, s.2 2))) = some (0, 0x100000000) ∧
    ¬ Along (Traced.step cpuAt 1 cpuAddr) (Traced.Preserves cpuAt 1) ⟨mainEntry, fun _ => none⟩
      [.schedule 0 (fun _ => 0x100000001), .schedule 0 (fun _ => 0x100000001)] := by
  have hbefore : (mainEntry.words.tcb 0).cpuInfo = cpuAddr 0 := by decide +kernel
  have hafter : (mainEntry.schedule cpuAt 1 0 (fun _ => 0x100000001)).map (fun r =>
      ((r.1.words.tcb 0).cpuInfo, (r.1.words.tcb 1).cpuInfo)) =
        some (0x100000001, 0x100000001) := by decide +kernel
  refine ⟨hbefore, hafter, by decide +kernel, fun h => ?_⟩
  obtain ⟨p', switch, hs, hkept⟩ := h.1 0 (by decide) (by decide +kernel)
  have hprev : (p'.words.tcb 0).cpuInfo = (mainEntry.words.tcb 0).cpuInfo := by
    cases switch with
    | none =>
      have hentry := hkept.prev (by decide)
      rw [hentry]
    | some s =>
      have hentry := hkept.1.prev (by decide)
      rw [hentry]
  rw [hs, Option.map_some, hprev, hbefore] at hafter
  exact absurd (Prod.mk.inj (Option.some.inj hafter)).1 (by decide)

end MainEntry

end Dmos.Proofs.Yield
