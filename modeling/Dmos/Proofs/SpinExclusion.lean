import Dmos.Lib.Run
import Dmos.Spinlock

namespace Dmos.Proofs.SpinExclusion
open Spinlock Lib

variable {lock : Word} {word : BitVec 32} {k : Core} {held : Bool}

/-- What holds of a core in `spin_lock` or `spin_trylock` up to the branch after its `stlxr`,
by the place it is at. While its monitor is open the lock still has the value read. -/
def Taking (lock : Word) (word : BitVec 32) (k : Core) (held : Bool) : Nat → Prop
  | 0 => k.x0 = lock ∧ k.acquired = false
  | 1 => k.x0 = lock ∧ k.acquired = false ∧ k.w1 = 1
  | 2 => k.x0 = lock ∧ k.acquired = false ∧ k.w1 = 1 ∧ (k.monitor = true → word = k.w2)
  | 3 => k.x0 = lock ∧ k.acquired = false ∧ k.w1 = 1 ∧ (k.monitor = true → word = 0)
  | 4 => k.x0 = lock ∧ (k.w2 = 0 ↔ k.acquired = true) ∧ k.w1 = 1 ∧ (k.acquired = true → held = true)
  | _ => False

/-- What holds of a core, by the place it is at. -/
def Local (lock : Word) (word : BitVec 32) (k : Core) (held : Bool) : Prop :=
  match k.pc with
  | none => True
  | some (.spinLock, 5) | some (.spinLock, 6) => k.acquired = true ∧ held = true
  | some (.spinTrylock, 5) | some (.spinTrylock, 6) => k.acquired = true ∧ held = true
  | some (.spinTrylock, 7) => k.get .w0 = 0 ∧ k.acquired = true ∧ held = true
  | some (.spinTrylock, 8) => k.acquired = false
  | some (.spinTrylock, 9) => k.get .w0 = 1 ∧ k.acquired = false
  | some (.spinLock, i) | some (.spinTrylock, i) => Taking lock word k held i
  | some (.spinUnlock, 0) | some (.spinUnlock, 1) => k.x0 = lock ∧ held = true
  | some (.spinUnlock, 2) => k.x0 = lock ∧ held = true ∧ k.w1 = 0
  | some (.spinUnlock, 3) => True
  | some (.spinUnlock, _) => False

/-- What a store can do: an exclusive one takes a free lock, a plain one frees a held one. -/
def Lawful (word : BitVec 32) (held : Bool) : Effect → Prop
  | .quiet => True
  | .exclusive v => v = 1 ∧ word = 0
  | .plain v => v = 0 ∧ held = true

/-- The conclusion of a step of one core. -/
def Executes (lock : Word) (word : BitVec 32) (ok : Bool) (k : Core) (held : Bool) : Prop :=
  ∃ k' e, exec lock word ok k = some (k', e) ∧ Local lock (e.word word) k' (e.holds held) ∧
    Lawful word held e

theorem executes_unlock (ok : Bool) {i : Nat} (hpc : k.pc = some (.spinUnlock, i))
    (h : Local lock word k held) : Executes lock word ok k held := by
  obtain ⟨pc, x0, w1, w2, monitor, acquired⟩ := k
  cases hpc
  match i, h with
  | 0, h => exact ⟨_, _, rfl, h, trivial⟩
  | 1, h => exact ⟨_, _, rfl, ⟨h.1, h.2, rfl⟩, trivial⟩
  | 2, h => exact ⟨_, _, if_pos h.1, trivial, ⟨h.2.2, h.2.1⟩⟩
  | 3, _ => exact ⟨_, _, rfl, trivial, trivial⟩

/-- The exclusive store: it fails, or it takes a lock that was still free. -/
theorem executes_stlxr (ok : Bool) {r : Routine} (hr : r ≠ .spinUnlock) (hpc : k.pc = some (r, 3))
    (h : Taking lock word k held 3) : Executes lock word ok k held := by
  obtain ⟨pc, x0, w1, w2, monitor, acquired⟩ := k
  cases hpc
  obtain ⟨hx0, hacq, hw1, hfree⟩ := h
  have hexec : exec lock word ok ⟨some (r, 3), x0, w1, w2, monitor, acquired⟩ =
      if (monitor && ok) = true then some (⟨some (r, 4), x0, w1, 0, monitor, true⟩, .exclusive w1)
      else some (⟨some (r, 4), x0, w1, 1, monitor, acquired⟩, .quiet) := by
    cases r with
    | spinUnlock => exact absurd rfl hr
    | spinLock => exact if_neg (not_not_intro hx0)
    | spinTrylock => exact if_neg (not_not_intro hx0)
  have hlocal : ∀ {word w2 acquired held}, Taking lock word ⟨some (r, 4), x0, w1, w2, monitor, acquired⟩ held 4 →
      Local lock word ⟨some (r, 4), x0, w1, w2, monitor, acquired⟩ held := fun ht => by
    cases r with
    | spinUnlock => exact absurd rfl hr
    | spinLock => exact ht
    | spinTrylock => exact ht
  by_cases hok : (monitor && ok) = true
  · refine ⟨_, _, hexec.trans (if_pos hok), hlocal ⟨hx0, ?_, hw1, fun _ => rfl⟩, hw1, ?_⟩
    · exact ⟨fun _ => rfl, fun _ => rfl⟩
    · exact hfree (Bool.and_eq_true_iff.mp hok).1
  · refine ⟨_, _, hexec.trans (if_neg hok), hlocal ⟨hx0, ?_, hw1, ?_⟩, trivial⟩
    · exact ⟨fun h1 => absurd h1 (show ¬ (1 : BitVec 32) = 0 by decide), fun ha => absurd (hacq.symm.trans ha) (by decide)⟩
    · exact fun ha => absurd (hacq.symm.trans ha) (by decide)

/-- A branch on `w2`. -/
theorem executes_cbnz (ok : Bool) {target : Nat} (hinstr : k.instr = some (.cbnz .w2 target))
    (hzero : k.w2 = 0 → Local lock word k.next held)
    (hjump : k.w2 ≠ 0 → Local lock word (k.jump target) held) : Executes lock word ok k held := by
  refine ⟨if k.w2 ≠ 0 then k.jump target else k.next, .quiet, by rw [exec, hinstr]; rfl, ?_, trivial⟩
  by_cases h0 : k.w2 = 0
  · rw [if_neg (not_not_intro h0)]
    exact hzero h0
  · rw [if_pos h0]
    exact hjump h0

theorem executes_lock (ok : Bool) {i : Nat} (hpc : k.pc = some (.spinLock, i))
    (h : Local lock word k held) : Executes lock word ok k held := by
  obtain ⟨pc, x0, w1, w2, monitor, acquired⟩ := k
  cases hpc
  match i, h with
  | 0, h => exact ⟨_, _, rfl, ⟨h.1, h.2, rfl⟩, trivial⟩
  | 1, h => exact ⟨_, _, if_pos h.1, ⟨h.1, h.2.1, h.2.2, fun _ => rfl⟩, trivial⟩
  | 2, ⟨hx0, hacq, hw1, hread⟩ =>
    apply executes_cbnz ok rfl
    · exact fun h0 => ⟨hx0, hacq, hw1, fun hm => (hread hm).trans h0⟩
    · exact fun _ => ⟨hx0, hacq, hw1⟩
  | 3, h => exact executes_stlxr ok (by decide) rfl h
  | 4, ⟨hx0, hstatus, hw1, hheld⟩ =>
    apply executes_cbnz ok rfl
    · exact fun h0 => ⟨hstatus.mp h0, hheld (hstatus.mp h0)⟩
    · exact fun h0 => ⟨hx0, Bool.eq_false_iff.mpr fun ha => h0 (hstatus.mpr ha), hw1⟩
  | 5, h => exact ⟨_, _, rfl, h, trivial⟩
  | 6, _ => exact ⟨_, _, rfl, trivial, trivial⟩

theorem executes_trylock (ok : Bool) {i : Nat} (hpc : k.pc = some (.spinTrylock, i))
    (h : Local lock word k held) : Executes lock word ok k held := by
  obtain ⟨pc, x0, w1, w2, monitor, acquired⟩ := k
  cases hpc
  match i, h with
  | 0, h => exact ⟨_, _, rfl, ⟨h.1, h.2, rfl⟩, trivial⟩
  | 1, h => exact ⟨_, _, if_pos h.1, ⟨h.1, h.2.1, h.2.2, fun _ => rfl⟩, trivial⟩
  | 2, ⟨hx0, hacq, hw1, hread⟩ =>
    apply executes_cbnz ok rfl
    · exact fun h0 => ⟨hx0, hacq, hw1, fun hm => (hread hm).trans h0⟩
    · exact fun _ => hacq
  | 3, h => exact executes_stlxr ok (by decide) rfl h
  | 4, ⟨_, hstatus, _, hheld⟩ =>
    apply executes_cbnz ok rfl
    · exact fun h0 => ⟨hstatus.mp h0, hheld (hstatus.mp h0)⟩
    · exact fun h0 => Bool.eq_false_iff.mpr fun ha => h0 (hstatus.mpr ha)
  | 5, h => exact ⟨_, _, rfl, h, trivial⟩
  | 6, h => exact ⟨_, _, rfl, ⟨rfl, h⟩, trivial⟩
  | 7, _ => exact ⟨_, _, rfl, trivial, trivial⟩
  | 8, h => exact ⟨_, _, rfl, ⟨rfl, h⟩, trivial⟩
  | 9, _ => exact ⟨_, _, rfl, trivial, trivial⟩

/-- A core in a routine executes its instruction: it never accesses anything but the lock,
and its next place has what holds there. -/
theorem executes (ok : Bool) (hpc : k.pc ≠ none) (h : Local lock word k held) :
    Executes lock word ok k held := by
  cases hk : k.pc with
  | none => exact absurd hk hpc
  | some place =>
    obtain ⟨r, i⟩ := place
    cases r with
    | spinLock => exact executes_lock ok hk h
    | spinTrylock => exact executes_trylock ok hk h
    | spinUnlock => exact executes_unlock ok hk h

/-- With its monitor closed, a core depends on nothing that another core's store changes. -/
theorem Local.close (word' : BitVec 32) (h : Local lock word k held) :
    Local lock word' { k with monitor := false } held := by
  have htaking : ∀ i, Taking lock word k held i → Taking lock word' { k with monitor := false } held i
    | 0, h => h
    | 1, h => h
    | 2, h => ⟨h.1, h.2.1, h.2.2.1, fun hm => Bool.noConfusion hm⟩
    | 3, h => ⟨h.1, h.2.1, h.2.2.1, fun hm => Bool.noConfusion hm⟩
    | 4, h => h
  obtain ⟨pc, x0, w1, w2, monitor, acquired⟩ := k
  cases pc with
  | none => trivial
  | some place =>
    obtain ⟨r, i⟩ := place
    cases r with
    | spinLock =>
      match i, h with
      | 5, h | 6, h => exact h
      | 0, h => exact htaking 0 h
      | 1, h => exact htaking 1 h
      | 2, h => exact htaking 2 h
      | 3, h => exact htaking 3 h
      | 4, h => exact htaking 4 h
    | spinTrylock =>
      match i, h with
      | 5, h | 6, h | 7, h | 8, h | 9, h => exact h
      | 0, h => exact htaking 0 h
      | 1, h => exact htaking 1 h
      | 2, h => exact htaking 2 h
      | 3, h => exact htaking 3 h
      | 4, h => exact htaking 4 h
    | spinUnlock =>
      match i, h with
      | 0, h | 1, h | 2, h | 3, h => exact h

variable {ι : Type} {s s' : State ι} {e : Event ι}

/-- The word says whether the lock is held, at most one core holds it, and every core is
where its registers say. -/
structure Inv (lock : Word) (s : State ι) : Prop where
  places : ∀ c, Local lock s.word (s.core c) (s.holds c)
  unique : ∀ c d, s.holds c = true → s.holds d = true → c = d
  word : s.word = 1 ∧ (∃ c, s.holds c = true) ∨ s.word = 0 ∧ ∀ c, s.holds c = false

theorem initial_inv (h : Initial s) : Inv lock s := by
  refine ⟨?_, ?_, .inr ⟨h.1, fun c => (h.2 c).2⟩⟩
  · intro c
    rw [Local, (h.2 c).1]
    trivial
  · intro c d hc
    exact absurd ((h.2 c).2.symm.trans hc) (by decide)

variable [DecidableEq ι]

/-- A call that can happen. -/
theorem step_call {c : ι} {r : Routine} {w1 w2 : BitVec 32}
    (h : step lock s (.call c r w1 w2) = some s') :
    (s.core c).pc = none ∧ (r = .spinUnlock → s.holds c = true) ∧
      s' = ⟨s.word, Function.update s.core c ⟨some (r, 0), lock, w1, w2, (s.core c).monitor, false⟩,
        s.holds⟩ := by
  rw [step] at h
  split at h
  · next hc => exact ⟨hc.1, hc.2, (Option.some.inj h).symm⟩
  · cases h

/-- An instruction that is executed. -/
theorem step_step {c : ι} {ok : Bool} (h : step lock s (.step c ok) = some s') :
    ∃ k f, exec lock s.word ok (s.core c) = some (k, f) ∧
      s' = ⟨f.word s.word,
        fun d => if d = c then k else { s.core d with monitor := f.monitor (s.core d).monitor },
        Function.update s.holds c (f.holds (s.holds c))⟩ := by
  rw [step, Option.map_eq_some_iff] at h
  obtain ⟨⟨k, f⟩, hexec, rfl⟩ := h
  exact ⟨k, f, hexec, rfl⟩

theorem call_inv {c : ι} {r : Routine} {w1 w2 : BitVec 32} (hi : Inv lock s)
    (h : step lock s (.call c r w1 w2) = some s') : Inv lock s' := by
  obtain ⟨_, hheld, rfl⟩ := step_call h
  refine ⟨?_, hi.unique, hi.word⟩
  intro d
  by_cases hd : d = c
  · subst hd
    simp only [Function.update_self]
    cases r with
    | spinLock => exact ⟨rfl, rfl⟩
    | spinTrylock => exact ⟨rfl, rfl⟩
    | spinUnlock => exact ⟨rfl, hheld rfl⟩
  · simp only [Function.update_of_ne hd]
    exact hi.places d

/-- What a store does to the holders. -/
theorem lawful_holders {c : ι} {f : Effect} (hi : Inv lock s)
    (hlawful : Lawful s.word (s.holds c) f) :
    (∀ a b, Function.update s.holds c (f.holds (s.holds c)) a = true →
      Function.update s.holds c (f.holds (s.holds c)) b = true → a = b) ∧
    (f.word s.word = 1 ∧ (∃ a, Function.update s.holds c (f.holds (s.holds c)) a = true) ∨
      f.word s.word = 0 ∧ ∀ a, Function.update s.holds c (f.holds (s.holds c)) a = false) := by
  cases f with
  | quiet =>
    simp only [Effect.holds, Effect.word, Function.update_eq_self]
    exact ⟨hi.unique, hi.word⟩
  | exclusive v =>
    obtain ⟨rfl, hfree⟩ := hlawful
    have hnone : ∀ a, s.holds a = false := by
      rcases hi.word with ⟨h1, _⟩ | ⟨_, hnone⟩
      · rw [hfree] at h1
        exact absurd h1 (by decide)
      · exact hnone
    have honly : ∀ a, Function.update s.holds c true a = true → a = c := by
      intro a ha
      by_contra hac
      rw [Function.update_of_ne hac, hnone a] at ha
      cases ha
    exact ⟨fun a b ha hb => (honly a ha).trans (honly b hb).symm,
      .inl ⟨rfl, c, Function.update_self c true s.holds⟩⟩
  | plain v =>
    obtain ⟨rfl, hheld⟩ := hlawful
    have hnone : ∀ a, Function.update s.holds c false a = false := by
      intro a
      by_cases hac : a = c
      · rw [hac, Function.update_self]
      · rw [Function.update_of_ne hac, Bool.eq_false_iff]
        exact fun ha => hac (hi.unique a c ha hheld)
    exact ⟨fun a _ ha => absurd ((hnone a).symm.trans ha) (by decide), .inr ⟨rfl, hnone⟩⟩

theorem exec_pc {ok : Bool} {x : Core × Effect} (h : exec lock word ok k = some x) : k.pc ≠ none := by
  intro hpc
  rw [exec, Core.instr, hpc] at h
  cases h

/-- The other cores after an instruction of one core. -/
theorem others_local {c d : ι} (f : Effect) (hi : Inv lock s) (hd : d ≠ c) :
    Local lock (f.word s.word) { s.core d with monitor := f.monitor (s.core d).monitor }
      (Function.update s.holds c (f.holds (s.holds c)) d) := by
  rw [Function.update_of_ne hd]
  cases f with
  | quiet => exact hi.places d
  | exclusive v => exact (hi.places d).close v
  | plain v => exact (hi.places d).close v

theorem instr_inv {c : ι} {ok : Bool} (hi : Inv lock s) (h : step lock s (.step c ok) = some s') :
    Inv lock s' := by
  obtain ⟨k, f, hexec, rfl⟩ := step_step h
  obtain ⟨k', f', hexec', hlocal, hlawful⟩ := executes ok (exec_pc hexec) (hi.places c)
  rw [hexec] at hexec'
  cases hexec'
  obtain ⟨hunique, hword⟩ := lawful_holders hi hlawful
  refine ⟨?_, hunique, hword⟩
  intro d
  by_cases hd : d = c
  · subst hd
    simp only [if_true, Function.update_self]
    exact hlocal
  · simp only [if_neg hd]
    exact others_local f hi hd

theorem step_inv (hi : Inv lock s) (h : step lock s e = some s') : Inv lock s' := by
  cases e with
  | call c r w1 w2 => exact call_inv hi h
  | step c ok => exact instr_inv hi h

theorem run_inv {es : List (Event ι)} (hi : Inv lock s) (h : run (step lock) s es = some s') :
    Inv lock s' :=
  run_always (fun _ _ _ hi he => step_inv hi he) es s s' hi h

/-- The core's next instruction is a successful `stlxr`. -/
def Acquires (s : State ι) (e : Event ι) (c : ι) : Prop :=
  ∃ rs rt, e = .step c true ∧ (s.core c).instr = some (.stlxr rs rt) ∧ (s.core c).monitor = true

/-- The core's next instruction is its `stlr`. -/
def Releases (s : State ι) (e : Event ι) (c : ι) : Prop :=
  ∃ ok rt, e = .step c ok ∧ (s.core c).instr = some (.stlr rt)

/-- The value that `spin_trylock` is about to return. -/
def tryResult (s : State ι) (c : ι) : Option (BitVec 32) :=
  match (s.core c).pc with
  | some (.spinTrylock, i) =>
    if Routine.spinTrylock.code[i]? = some .ret then some ((s.core c).get .w0) else none
  | _ => none

/-- The core is about to return from `spin_lock`. -/
def LockReturns (s : State ι) (c : ι) : Prop :=
  ∃ i, (s.core c).pc = some (.spinLock, i) ∧ Routine.spinLock.code[i]? = some .ret

/-- What is promised of a state of the lock and of every event in it. -/
structure Excludes (lock : Word) (s : State ι) : Prop where
  unique : ∀ c d, s.holds c = true → s.holds d = true → c = d
  word : s.word = 1 ↔ ∃ c, s.holds c = true
  free : s.word = 0 ↔ ∀ c, s.holds c = false
  tries : ∀ c v, tryResult s c = some v →
    (v = 0 ↔ (s.core c).acquired = true) ∧ ((s.core c).acquired = true → s.holds c = true)
  locked : ∀ c, LockReturns s c → s.holds c = true
  span : ∀ e s', step lock s e = some s' → ∀ c,
    s'.holds c = true ↔ Acquires s e c ∨ s.holds c = true ∧ ¬ Releases s e c
  executes : ∀ c ok, (s.core c).pc ≠ none → ∃ s', step lock s (.step c ok) = some s'

/-- An instruction that stores nothing is no `stlr`, and no `stlxr` that could succeed. -/
def Silent (k : Core) (ok : Bool) : Prop :=
  (∀ rt, k.instr ≠ some (.stlr rt)) ∧
    ((∃ rs rt, k.instr = some (.stlxr rs rt)) → ¬ (ok = true ∧ k.monitor = true))

theorem quiet_of_instr {ok : Bool} {i : Instr} (hi : k.instr = some i) (hstlr : ∀ rt, i ≠ .stlr rt)
    (hstlxr : ∀ rs rt, i ≠ .stlxr rs rt) : Silent k ok := by
  constructor
  · intro rt h
    exact hstlr rt (Option.some.inj (hi.symm.trans h))
  · rintro ⟨rs, rt, h⟩
    exact absurd (Option.some.inj (hi.symm.trans h)) (hstlxr rs rt)

/-- The effect of an instruction by what it is. -/
theorem exec_effect {ok : Bool} {k' : Core} {f : Effect} (h : exec lock word ok k = some (k', f)) :
    match f with
    | .exclusive _ => ok = true ∧ k.monitor = true ∧ ∃ rs rt, k.instr = some (.stlxr rs rt)
    | .plain _ => ∃ rt, k.instr = some (.stlr rt)
    | .quiet => Silent k ok := by
  rw [exec, Option.bind_eq_some_iff] at h
  obtain ⟨i, hi, h⟩ := h
  cases i with
  | stlxr rs rt =>
    simp only at h
    split at h
    · cases h
    · split at h
      · next hok =>
        cases h
        obtain ⟨hm, ho⟩ := Bool.and_eq_true_iff.mp hok
        exact ⟨ho, hm, rs, rt, hi⟩
      · next hok =>
        cases h
        refine ⟨fun rt' h' => ?_, fun _ hb => hok (Bool.and_eq_true_iff.mpr ⟨hb.2, hb.1⟩)⟩
        rw [hi] at h'
        cases h'
  | stlr rt =>
    simp only at h
    split at h
    · cases h
      exact ⟨rt, hi⟩
    · cases h
  | ldaxr rt =>
    simp only at h
    split at h
    · cases h
      exact quiet_of_instr hi (by simp) (by simp)
    · cases h
  | mov rd imm =>
    cases h
    exact quiet_of_instr hi (by simp) (by simp)
  | cbnz rt target =>
    cases h
    exact quiet_of_instr hi (by simp) (by simp)
  | dmb =>
    cases h
    exact quiet_of_instr hi (by simp) (by simp)
  | ret =>
    cases h
    exact quiet_of_instr hi (by simp) (by simp)

theorem kept_iff {b : Bool} {A R : Prop} (ha : ¬ A) (hr : ¬ R) : b = true ↔ A ∨ b = true ∧ ¬ R :=
  ⟨fun hb => .inr ⟨hb, hr⟩, fun h => (h.resolve_left ha).1⟩

/-- A core holds the lock exactly from its successful `stlxr` to its `stlr`. -/
theorem holds_span (h : step lock s e = some s') (c : ι) :
    s'.holds c = true ↔ Acquires s e c ∨ s.holds c = true ∧ ¬ Releases s e c := by
  cases e with
  | call d r w1 w2 =>
    obtain ⟨_, _, rfl⟩ := step_call h
    have ha : ¬ Acquires s (.call d r w1 w2) c := by
      rintro ⟨_, _, he, _⟩
      cases he
    have hr : ¬ Releases s (.call d r w1 w2) c := by
      rintro ⟨_, _, he, _⟩
      cases he
    exact kept_iff ha hr
  | step d ok =>
    obtain ⟨k, f, hexec, rfl⟩ := step_step h
    have heffect := exec_effect hexec
    by_cases hcd : c = d
    · subst hcd
      simp only [Function.update_self]
      cases f with
      | quiet =>
        obtain ⟨hstlr, hstlxr⟩ := heffect
        have ha : ¬ Acquires s (.step c ok) c := by
          rintro ⟨rs, rt, he, hi, hm⟩
          cases he
          exact hstlxr ⟨rs, rt, hi⟩ ⟨rfl, hm⟩
        have hr : ¬ Releases s (.step c ok) c := by
          rintro ⟨_, rt, _, hi⟩
          exact hstlr rt hi
        exact kept_iff ha hr
      | exclusive v =>
        obtain ⟨rfl, hm, rs, rt, hi⟩ := heffect
        exact ⟨fun _ => .inl ⟨rs, rt, rfl, hi, hm⟩, fun _ => rfl⟩
      | plain v =>
        obtain ⟨rt, hi⟩ := heffect
        have ha : ¬ Acquires s (.step c ok) c := by
          rintro ⟨rs, rt', _, hi', _⟩
          rw [hi] at hi'
          cases hi'
        exact ⟨fun hh => Bool.noConfusion hh,
          fun hh => absurd ⟨ok, rt, rfl, hi⟩ (hh.resolve_left ha).2⟩
    · simp only [Function.update_of_ne hcd]
      have ha : ¬ Acquires s (.step d ok) c := by
        rintro ⟨_, _, he, _⟩
        exact hcd (Event.step.inj he).1.symm
      have hr : ¬ Releases s (.step d ok) c := by
        rintro ⟨_, _, he, _⟩
        exact hcd (Event.step.inj he).1.symm
      exact kept_iff ha hr

omit [DecidableEq ι] in
theorem tryResult_spec (hi : Inv lock s) {c : ι} {v : BitVec 32} (h : tryResult s c = some v) :
    (v = 0 ↔ (s.core c).acquired = true) ∧ ((s.core c).acquired = true → s.holds c = true) := by
  have hlocal := hi.places c
  rw [tryResult] at h
  split at h
  · next i hpc =>
    rw [Local, hpc] at hlocal
    split at h
    · next hret =>
      cases h
      match i, hret, hlocal with
      | 7, _, hlocal => exact ⟨⟨fun _ => hlocal.2.1, fun _ => hlocal.1⟩, fun _ => hlocal.2.2⟩
      | 9, _, hlocal =>
        rw [hlocal.1, hlocal.2]
        exact ⟨⟨fun h1 => absurd h1 (by decide), fun h1 => Bool.noConfusion h1⟩,
          fun h1 => Bool.noConfusion h1⟩
    · cases h
  · cases h

omit [DecidableEq ι] in
theorem lockReturns_spec (hi : Inv lock s) {c : ι} (h : LockReturns s c) : s.holds c = true := by
  obtain ⟨i, hpc, hret⟩ := h
  have hlocal := hi.places c
  rw [Local, hpc] at hlocal
  match i, hret, hlocal with
  | 6, _, hlocal => exact hlocal.2

theorem excludes_of_inv (hi : Inv lock s) : Excludes lock s := by
  refine ⟨hi.unique, ?_, ?_, fun c v => tryResult_spec hi, fun c => lockReturns_spec hi,
    fun e s' h c => holds_span h c, ?_⟩
  · rcases hi.word with ⟨h1, hc⟩ | ⟨h0, hnone⟩
    · exact ⟨fun _ => hc, fun _ => h1⟩
    · rw [h0]
      refine ⟨fun h => absurd h (by decide), ?_⟩
      rintro ⟨c, hc⟩
      exact absurd ((hnone c).symm.trans hc) (by decide)
  · rcases hi.word with ⟨h1, c, hc⟩ | ⟨h0, hnone⟩
    · rw [h1]
      exact ⟨fun h => absurd h (by decide), fun h => absurd ((h c).symm.trans hc) (by decide)⟩
    · exact ⟨fun _ => hnone, fun _ => h0⟩
  · intro c ok hpc
    obtain ⟨k, f, hexec, _⟩ := executes ok hpc (hi.places c)
    exact ⟨_, by rw [step, hexec]; rfl⟩

/-- Mutual exclusion, for any cores and any interleaving of their instructions: at most one
core holds the lock, from its successful `stlxr` to its `stlr`; the word is 1 exactly while
one does; `spin_trylock` returns 0 exactly when it has taken the lock. -/
theorem mutual_exclusion {ι : Type} [DecidableEq ι] (lock : Word) (s s' : State ι)
    (hinit : Initial s) (es : List (Event ι)) (hrun : run (step lock) s es = some s') :
    Excludes lock s' :=
  excludes_of_inv (run_inv (initial_inv hinit) hrun)

/-- Two cores outside the routines, with a lock that was just initialised. -/
def twoCores : State Bool := ⟨0, fun _ => ⟨none, 0, 0, 0, true, false⟩, fun _ => false⟩

/-- One core takes the lock between the other's `ldaxr` and `stlxr`. -/
def race : List (Event Bool) :=
  [.call true .spinLock 7 7, .call false .spinTrylock 7 7, .step true true, .step true true,
    .step false true, .step false true, .step true true, .step true true, .step false true,
    .step false true, .step false true, .step false true]

theorem race_excludes : ∃ s', run (step 0x1000) twoCores race = some s' ∧ Excludes 0x1000 s' ∧
    tryResult s' false = some 1 := by
  obtain ⟨s', hrun, hresult⟩ : ∃ s', run (step 0x1000) twoCores race = some s' ∧
      tryResult s' false = some 1 := ⟨_, rfl, rfl⟩
  have hinit : Initial twoCores := ⟨rfl, fun _ => ⟨rfl, rfl⟩⟩
  exact ⟨s', hrun, mutual_exclusion 0x1000 twoCores s' hinit race hrun, hresult⟩

end Dmos.Proofs.SpinExclusion
