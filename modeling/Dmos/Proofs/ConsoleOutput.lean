import Dmos.Console
import Dmos.Proofs.FormatLanguage

namespace Dmos.Proofs.ConsoleOutput
open Dmos.Lib Printf Console Atol Formatting Truncation FormatLanguage

variable {env : Env} {depth : Nat} {programs : Nat → List Command} {s s' : State} {i j k n : Nat}
  {c : Core} {rd : Reader} {t u : List Byte}

/-! ### Texts -/

/-- What a command prints. The buffer of `printf` cuts the output, and a zero among its
characters ends it. -/
def text (env : Env) : Command → List Byte
  | .putc c => [c]
  | .puts str => str.bytes
  | .printf fmt va => (((fullOutput env fmt va).getD []).take 1023).takeWhile (· ≠ 0)

def texts (env : Env) (program : List Command) : List Byte := program.flatMap (text env)

/-- The formatter returns. -/
def Returns : Command → Prop
  | .printf fmt _ => ShortWidths fmt.bytes
  | _ => True

/-- A string in memory: its characters from an offset on, and its terminator. -/
def StringAt (rd : Reader) (i : Nat) (t : List Byte) : Prop := 0 ∉ t ∧ Spells rd i (t ++ [0])

theorem stringAt_read (str : CString) : StringAt str.read 0 str.bytes :=
  ⟨str.nonzero, spells_read (Nat.zero_le _) List.drop_zero⟩

theorem Spells.of_append {i : Nat} (h : Spells rd i (t ++ u)) : Spells rd i t := by
  intro k hk
  rw [h k (by rw [List.length_append]; omega), List.getElem?_append_left hk]

/-- The buffer that `printf` prints from. -/
theorem stringAt_held {fmt : CString} {va : Nat → Word} {r : Result}
    (h : vsnprintf env bufsz fmt va = some r) : StringAt r.held 0 (text env (.printf fmt va)) := by
  rw [vsnprintf_eq, Option.map_eq_some_iff] at h
  obtain ⟨⟨t, c⟩, hrun, hr⟩ := h
  have htext : text env (.printf fmt va) = (t.take 1023).takeWhile (· ≠ 0) := by
    rw [text, fullOutput, hrun]
    rfl
  have hheld : Spells r.held 0 (t.take 1023 ++ [0]) := by
    apply SignedRoundTrip.spells_held
    rw [← hr]
    rfl
  have hstop : ∀ l : List Byte, ∃ x v, l ++ [0] = l.takeWhile (· ≠ 0) ++ x :: v ∧ decide (x ≠ 0) = false ∧
      l.dropWhile (· ≠ 0) ++ [0] = x :: v := exists_stop (by decide)
  obtain ⟨x, v, hsplit, hx, _⟩ := hstop (t.take 1023)
  obtain rfl : x = 0 := by simpa using hx
  rw [htext]
  refine ⟨?_, ?_⟩
  · intro hmem
    exact absurd (List.mem_takeWhile_imp hmem) (by decide)
  · rw [hsplit, ← List.singleton_append, ← List.append_assoc] at hheld
    exact Spells.of_append hheld

/-! ### What a core still prints -/

/-- The rest of the string that a character belongs to. -/
def After : Option (Reader × Nat) → List Byte → Prop
  | none, u => u = []
  | some (str, i), u => StringAt str i u

/-- What a core still prints of the command it is in, where it stands. -/
def Current : Pc → List Byte → Prop
  | .ready, u => u = []
  | .putstr str i, u => StringAt str i u
  | .poll b ret, u | .lock b ret, u | .write b ret, u => ∃ v, u = b :: v ∧ After ret v
  | .unlock ret, u => After ret u

theorem current_back {ret : Option (Reader × Nat)} (h : After ret u) : Current (back ret) u := by
  cases ret with
  | none => exact h
  | some r => exact h

/-- The characters that a core has stored, in their order. -/
def byCore (i : Nat) (wire : List (Nat × Byte)) : List Byte :=
  (wire.filter fun w => w.1 = i).map (·.2)

theorem byCore_append (i : Nat) (wire wire' : List (Nat × Byte)) :
    byCore i (wire ++ wire') = byCore i wire ++ byCore i wire' := by
  rw [byCore, List.filter_append, List.map_append]
  rfl

theorem byCore_own (i : Nat) (out : List Byte) : byCore i (out.map (i, ·)) = out := by
  induction out with
  | nil => rfl
  | cons b out ih =>
    rw [byCore, List.map_cons, List.filter_cons, if_pos (decide_eq_true rfl), List.map_cons]
    exact congrArg (b :: ·) ih

theorem byCore_other (h : j ≠ i) (out : List Byte) : byCore i (out.map (j, ·)) = [] := by
  induction out with
  | nil => rfl
  | cons b out ih =>
    rw [byCore, List.map_cons, List.filter_cons, if_neg (by simpa using h)]
    exact ih

/-- The whole of a core's program is what it has stored, what it still prints of its
command, and the commands after it. -/
def Accounted (env : Env) (s : State) (i : Nat) (whole : List Byte) : Prop :=
  ∃ u, Current (s.cores i).pc u ∧ whole = byCore i s.wire ++ (u ++ texts env (s.cores i).program)

structure Inv (env : Env) (programs : Nat → List Command) (s : State) : Prop where
  op : s.uartOp = true
  returns : ∀ i, ∀ cmd ∈ (s.cores i).program, Returns cmd
  accounted : ∀ i, Accounted env s i (texts env (programs i))

theorem initial_inv (h : ∀ i, ∀ cmd ∈ programs i, Returns cmd) : Inv env programs (initial programs) :=
  ⟨rfl, h, fun _ => ⟨[], rfl, rfl⟩⟩

/-- A step of one core leaves the others, and what they have stored, as they are. -/
theorem Inv.core (h : Inv env programs s) {out : List Byte} (hop : s'.uartOp = true)
    (hcores : s'.cores = Function.update s.cores i c) (hwire : s'.wire = s.wire ++ out.map (i, ·))
    (hsub : ∀ cmd ∈ c.program, cmd ∈ (s.cores i).program)
    (hown : ∃ v, Current c.pc v ∧
      texts env (programs i) = byCore i s.wire ++ (out ++ (v ++ texts env c.program))) :
    Inv env programs s' := by
  refine ⟨hop, ?_, ?_⟩
  · intro j cmd hcmd
    rw [hcores] at hcmd
    by_cases hj : j = i
    · subst hj
      rw [Function.update_self] at hcmd
      exact h.returns j cmd (hsub cmd hcmd)
    · rw [Function.update_of_ne hj] at hcmd
      exact h.returns j cmd hcmd
  · intro j
    rw [Accounted, hcores, hwire, byCore_append]
    by_cases hj : j = i
    · subst hj
      obtain ⟨v, hv, hwhole⟩ := hown
      rw [Function.update_self, byCore_own]
      exact ⟨v, hv, by rw [hwhole, List.append_assoc]⟩
    · rw [Function.update_of_ne hj, byCore_other fun h => hj h.symm, List.append_nil]
      exact h.accounted j

/-- A command starts with its whole text to print. -/
theorem start_inv (h : Inv env programs s) (hpc : (s.cores i).pc = .ready) :
    ∃ s', start env s i = some s' ∧ Inv env programs s' := by
  have hret := h.returns i
  obtain ⟨u, hu, hwhole⟩ := h.accounted i
  rw [hpc] at hu
  obtain rfl : u = [] := hu
  rw [start]
  cases hprog : (s.cores i).program with
  | nil => exact ⟨s, rfl, h⟩
  | cons cmd rest =>
    rw [hprog] at hret hwhole
    -- the command leaves the program and becomes the current one
    have hnext : ∀ (s' : State) (pc : Pc), s'.uartOp = true →
        s'.cores = Function.update s.cores i ⟨pc, rest⟩ → s'.wire = s.wire → Current pc (text env cmd) →
        Inv env programs s' := by
      intro s' pc hop hcores hwire hcur
      refine h.core hop hcores (by rw [hwire, List.map_nil, List.append_nil]) ?_ ⟨_, hcur, hwhole⟩
      intro cmd' hmem
      rw [hprog]
      exact List.mem_cons_of_mem cmd hmem
    cases cmd with
    | putc b => exact ⟨_, if_pos h.op, hnext _ (.poll b none) h.op rfl rfl ⟨[], rfl, rfl⟩⟩
    | puts str => exact ⟨_, rfl, hnext _ (.putstr str.read 0) rfl rfl rfl (stringAt_read str)⟩
    | printf fmt va =>
      obtain ⟨⟨t, c⟩, hrun⟩ : ∃ r, format push env fmt va [] = some r :=
        (format_isSome_iff push []).mpr (hret _ List.mem_cons_self)
      obtain ⟨r, hr⟩ : ∃ r, vsnprintf env bufsz fmt va = some r := by
        rw [vsnprintf_eq, hrun]
        exact ⟨_, rfl⟩
      refine ⟨({ s with uartOp := true }.set i ⟨.putstr r.held 0, rest⟩), ?_,
        hnext _ (.putstr r.held 0) rfl rfl rfl (stringAt_held hr)⟩
      simp only [hr, Option.map_some]

theorem advance_inv (h : Inv env programs s) (i : Nat) :
    ∃ s', advance env depth s i = some s' ∧ Inv env programs s' := by
  obtain ⟨u, hu, hwhole⟩ := h.accounted i
  have hmove : ∀ (s' : State) (pc : Pc) (out v : List Byte), s'.uartOp = s.uartOp →
      s'.cores = Function.update s.cores i ((s.cores i).goto pc) → s'.wire = s.wire ++ out.map (i, ·) →
      Current pc v → u = out ++ v → Inv env programs s' := by
    intro s' pc out v hop hcores hwire hv huv
    refine h.core (hop.trans h.op) hcores hwire (fun _ h => h) ⟨v, hv, ?_⟩
    rw [hwhole, huv, List.append_assoc]
    rfl
  have hsame : s.wire = s.wire ++ ([] : List Byte).map (i, ·) := by
    rw [List.map_nil, List.append_nil]
  rw [advance]
  cases hpc : (s.cores i).pc with
  | ready => exact start_inv h hpc
  | putstr str k =>
    rw [hpc] at hu
    simp only
    cases u with
    | nil =>
      rw [Spells.head hu.2]
      exact ⟨_, rfl, hmove _ .ready [] [] rfl rfl hsame rfl rfl⟩
    | cons b v =>
      have hb : b ≠ 0 := fun h0 => hu.1 (h0 ▸ List.mem_cons_self)
      have hrest : StringAt str (k + 1) v :=
        ⟨fun hmem => hu.1 (List.mem_cons_of_mem b hmem), Spells.tail hu.2⟩
      rw [Spells.head hu.2]
      refine ⟨_, rfl, hmove _ (.poll b (some (str, k + 1))) [] (b :: v) rfl ?_ hsame ⟨v, rfl, hrest⟩ rfl⟩
      simp only [if_neg hb]
      rfl
  | poll b ret =>
    rw [hpc] at hu
    simp only
    split
    · exact ⟨_, rfl, hmove _ (.lock b ret) [] u rfl rfl hsame hu rfl⟩
    · exact ⟨s, rfl, h⟩
  | lock b ret =>
    rw [hpc] at hu
    simp only
    split
    · exact ⟨_, rfl, hmove _ (.write b ret) [] u rfl rfl hsame hu rfl⟩
    · exact ⟨s, rfl, h⟩
  | write b ret =>
    rw [hpc] at hu
    obtain ⟨v, rfl, hv⟩ := hu
    refine ⟨_, rfl, ?_⟩
    rw [State.store]
    split <;> exact hmove _ (.unlock ret) [b] v rfl rfl rfl hv rfl
  | unlock ret =>
    rw [hpc] at hu
    exact ⟨_, rfl, hmove _ (back ret) [] u rfl rfl hsame (current_back hu) rfl⟩

theorem step_inv (h : Inv env programs s) (e : Event) :
    ∃ s', step env depth s e = some s' ∧ Inv env programs s' := by
  cases e with
  | core i => exact advance_inv h i
  | drain =>
    rw [step]
    cases s.fifo with
    | nil => exact ⟨s, rfl, h⟩
    | cons b rest => exact ⟨_, rfl, h.op, h.returns, h.accounted⟩

/-! ### Room in the transmitter -/

/-- A core between its last read of `UART0_FR` and its store. -/
def Between : Pc → Prop
  | .lock _ _ | .write _ _ => True
  | _ => False

/-- No core reads `UART0_FR` while another is between its own read and its store. -/
def Alone (s : State) : Event → Prop
  | .core i => ∀ c ret, (s.cores i).pc = .poll c ret → ∀ j ≠ i, ¬ Between (s.cores j).pc
  | .drain => True

/-- The core that is between a read and its store finds room, and everything stored is in the
transmitter or has left it. -/
structure Room (depth : Nat) (s : State) : Prop where
  room : ∀ i, Between (s.cores i).pc → s.fifo.length < depth ∧ ∀ j ≠ i, ¬ Between (s.cores j).pc
  kept : s.lost = []
  order : s.sent ++ s.fifo = s.wire.map (·.2)

theorem initial_room : Room depth (initial programs) := ⟨fun _ h => h.elim, rfl, rfl⟩

/-- A core that is not between a read and a store makes no difference. -/
theorem Room.leave (h : Room depth s) (hcores : s'.cores = Function.update s.cores i c)
    (hc : ¬ Between c.pc) (hfifo : s'.fifo = s.fifo) (hlost : s'.lost = s.lost)
    (hsent : s'.sent = s.sent) (hwire : s'.wire = s.wire) : Room depth s' := by
  have hpc : ∀ j, Between (s'.cores j).pc → Between (s.cores j).pc := by
    intro j hj
    rw [hcores] at hj
    by_cases hji : j = i
    · subst hji
      rw [Function.update_self] at hj
      exact absurd hj hc
    · rwa [Function.update_of_ne hji] at hj
  refine ⟨?_, hlost.trans h.kept, ?_⟩
  · intro j hj
    obtain ⟨hroom, hother⟩ := h.room j (hpc j hj)
    exact ⟨hfifo ▸ hroom, fun k hk hbetween => hother k hk (hpc k hbetween)⟩
  · rw [hsent, hfifo, hwire]
    exact h.order

/-- The only core between a read and a store. -/
theorem Room.only (h : Room depth s) (hcores : s'.cores = Function.update s.cores i c)
    (hroom : s.fifo.length < depth) (hother : ∀ j ≠ i, ¬ Between (s.cores j).pc)
    (hfifo : s'.fifo = s.fifo) (hlost : s'.lost = s.lost) (hsent : s'.sent = s.sent)
    (hwire : s'.wire = s.wire) : Room depth s' := by
  have hothers : ∀ j ≠ i, ¬ Between (s'.cores j).pc := by
    intro j hj
    rw [hcores, Function.update_of_ne hj]
    exact hother j hj
  refine ⟨?_, hlost.trans h.kept, ?_⟩
  · intro j hj
    have hji : j = i := by
      by_contra hne
      exact hothers j hne hj
    exact ⟨hfifo ▸ hroom, hji ▸ hothers⟩
  · rw [hsent, hfifo, hwire]
    exact h.order

/-- The store of the only core that is between a read and a store. -/
theorem Room.write {b : Byte} {ret : Option (Reader × Nat)} (h : Room depth s)
    (hpc : (s.cores i).pc = .write b ret) :
    Room depth ((s.store depth i b).set i ((s.cores i).goto (.unlock ret))) := by
  obtain ⟨hroom, hother⟩ := h.room i (by rw [hpc]; trivial)
  rw [State.store, if_pos hroom]
  refine ⟨?_, h.kept, ?_⟩
  · intro j hj
    simp only [State.set] at hj
    by_cases hji : j = i
    · subst hji
      rw [Function.update_self] at hj
      exact hj.elim
    · rw [Function.update_of_ne hji] at hj
      exact absurd hj (hother j hji)
  · simp only [State.set, List.map_append, List.map_cons, List.map_nil]
    rw [← List.append_assoc, h.order]

theorem start_room (h : Room depth s) (hs : start env s i = some s') : Room depth s' := by
  rw [start] at hs
  split at hs
  · exact Option.some.inj hs ▸ h
  · split at hs
    · cases hs
      exact h.leave rfl id rfl rfl rfl rfl
    · cases hs
  · cases hs
    exact h.leave rfl id rfl rfl rfl rfl
  · obtain ⟨r, _, rfl⟩ := Option.map_eq_some_iff.mp hs
    exact h.leave rfl id rfl rfl rfl rfl

theorem advance_room (h : Room depth s) (halone : Alone s (.core i))
    (hs : advance env depth s i = some s') : Room depth s' := by
  rw [advance] at hs
  cases hpc : (s.cores i).pc with
  | ready =>
    rw [hpc] at hs
    exact start_room h hs
  | putstr str k =>
    rw [hpc] at hs
    obtain ⟨b, _, rfl⟩ := Option.map_eq_some_iff.mp hs
    refine h.leave rfl ?_ rfl rfl rfl rfl
    simp only [Core.goto]
    split <;> exact id
  | poll b ret =>
    rw [hpc] at hs
    simp only at hs
    split at hs
    · next hroom =>
      cases hs
      exact h.only rfl hroom (halone b ret hpc) rfl rfl rfl rfl
    · exact Option.some.inj hs ▸ h
  | lock b ret =>
    have hbetween := h.room i (by rw [hpc]; trivial)
    rw [hpc] at hs
    simp only at hs
    split at hs
    · cases hs
      exact h.only rfl hbetween.1 hbetween.2 rfl rfl rfl rfl
    · exact Option.some.inj hs ▸ h
  | write b ret =>
    rw [hpc] at hs
    cases hs
    exact h.write hpc
  | unlock ret =>
    rw [hpc] at hs
    cases hs
    refine h.leave rfl ?_ rfl rfl rfl rfl
    rcases ret with _ | ⟨str, k⟩ <;> exact id

theorem step_room {e : Event} (h : Room depth s) (halone : Alone s e)
    (hs : step env depth s e = some s') : Room depth s' := by
  cases e with
  | core i => exact advance_room h halone hs
  | drain =>
    rw [step] at hs
    cases hfifo : s.fifo with
    | nil =>
      rw [hfifo] at hs
      exact Option.some.inj hs ▸ h
    | cons b rest =>
      rw [hfifo] at hs
      cases hs
      refine ⟨?_, h.kept, ?_⟩
      · intro i hi
        obtain ⟨hroom, hother⟩ := h.room i hi
        rw [hfifo, List.length_cons] at hroom
        exact ⟨Nat.lt_of_succ_lt hroom, hother⟩
      · have horder := h.order
        rw [hfifo] at horder
        simp only [List.append_assoc, List.singleton_append]
        exact horder

/-- A statement of a core leaves the others where they are. -/
theorem advance_other (hs : advance env depth s i = some s') (hj : j ≠ i) :
    s'.cores j = s.cores j := by
  have hset : ∀ (u : State) c, u.cores = s.cores → (u.set i c).cores j = s.cores j := by
    intro u c hu
    rw [State.set, hu]
    exact Function.update_of_ne hj _ _
  rw [advance] at hs
  split at hs
  · rw [start] at hs
    split at hs
    · exact Option.some.inj hs ▸ rfl
    · split at hs
      · exact Option.some.inj hs ▸ hset _ _ rfl
      · cases hs
    · exact Option.some.inj hs ▸ hset _ _ rfl
    · obtain ⟨r, -, rfl⟩ := Option.map_eq_some_iff.mp hs
      exact hset _ _ rfl
  · obtain ⟨b, -, rfl⟩ := Option.map_eq_some_iff.mp hs
    exact hset _ _ rfl
  · split at hs
    · exact Option.some.inj hs ▸ hset _ _ rfl
    · exact Option.some.inj hs ▸ rfl
  · split at hs
    · exact Option.some.inj hs ▸ hset _ _ rfl
    · exact Option.some.inj hs ▸ rfl
  · refine Option.some.inj hs ▸ hset _ _ ?_
    rw [State.store]
    split <;> rfl
  · exact Option.some.inj hs ▸ hset _ _ rfl

instance (p : Pc) : Decidable (Between p) := by
  cases p <;> simp only [Between] <;> infer_instance

/-- `Alone`, computed for the first `n` cores. -/
def aloneB (n : Nat) (s : State) : Event → Bool
  | .core i => decide (i < n) && (List.range n).all fun j => j == i || !decide (Between (s.cores j).pc)
  | .drain => true

theorem along_alone (es : List Event) (s : State) (hrest : ∀ j, n ≤ j → ¬ Between (s.cores j).pc)
    (h : alongB (step env depth) (aloneB n) s es = true) : Along (step env depth) Alone s es := by
  induction es generalizing s with
  | nil => trivial
  | cons e es ih =>
    simp only [alongB, Bool.and_eq_true] at h
    obtain ⟨hcheck, hrun⟩ := h
    refine ⟨?_, fun s' hs => ih s' ?_ (by simpa only [hs] using hrun)⟩
    · cases e with
      | drain => trivial
      | core i =>
        intro c ret _ j hj
        by_cases hjn : j < n
        · simp only [aloneB, Bool.and_eq_true, List.all_eq_true, List.mem_range] at hcheck
          simpa [hj] using hcheck.2 j hjn
        · exact hrest j (by omega)
    · intro j hj
      cases e with
      | drain =>
        rw [step] at hs
        split at hs <;> exact Option.some.inj hs ▸ hrest j hj
      | core i =>
        simp only [aloneB, Bool.and_eq_true, decide_eq_true_eq] at hcheck
        rw [advance_other hs (by omega)]
        exact hrest j hj

/-! ### The console -/

/-- The output of any number of cores that print at once, however their statements and the
transmitter interleave. No step faults. Each core's characters are stored in the order of
its program, none is left out or stored twice, and a core that is done has stored them all.
When no core reads `UART0_FR` between another's read and store, none is lost either: what
has left the transmitter and what is still in it are the characters stored. -/
theorem console_output (env : Env) (depth : Nat) (programs : Nat → List Command)
    (h : ∀ i, ∀ cmd ∈ programs i, Returns cmd) (es : List Event) :
    ∃ s, run (step env depth) (initial programs) es = some s ∧
      (∀ i, byCore i s.wire <+: texts env (programs i)) ∧
      (∀ i, (s.cores i).pc = .ready → (s.cores i).program = [] →
        byCore i s.wire = texts env (programs i)) ∧
      (Along (step env depth) Alone (initial programs) es →
        s.lost = [] ∧ s.sent ++ s.fifo = s.wire.map (·.2)) := by
  have hstep : ∀ s e, Inv env programs s → True → ∃ s', step env depth s e = some s' ∧ Inv env programs s' :=
    fun _ e hi _ => step_inv hi e
  obtain ⟨s, hrun, hinv⟩ :=
    run_invariant hstep es (initial programs) (initial_inv h) (Along.of_forall (fun _ _ => trivial) es _)
  refine ⟨s, hrun, ?_, ?_, ?_⟩
  · intro i
    obtain ⟨u, _, hwhole⟩ := hinv.accounted i
    exact ⟨_, hwhole.symm⟩
  · intro i hpc hprog
    obtain ⟨u, hu, hwhole⟩ := hinv.accounted i
    rw [hpc] at hu
    obtain rfl : u = [] := hu
    rw [hwhole, hprog, texts, List.flatMap_nil, List.append_nil, List.append_nil]
  · intro halone
    have hroom : Room depth s :=
      run_keeps (fun _ _ _ hi hc hs => step_room hi hc hs) es _ s initial_room halone hrun
    exact ⟨hroom.kept, hroom.order⟩

/-- One core prints a message, two others a character each. -/
def infoPrograms : Nat → List Command
  | 0 => [printInfo 0x40080000]
  | 1 => [.putc (ch '!')]
  | 2 => [.putc (ch '?')]
  | _ => []

/-- The second and the third core find room at the same time. Both store, and a character
is lost. -/
def overrun : List Event := [1, 2, 1, 2, 1, 1, 1, 2, 2].map .core

theorem infoPrograms_return : ∀ i, ∀ cmd ∈ infoPrograms i, Returns cmd := by
  have hshort : ∀ fmt : CString, fmt.bytes.length < 2 ^ 31 → ShortWidths fmt.bytes := fun _ h =>
    Directive.shortWidths_of_length h
  intro i cmd hcmd
  match i with
  | 0 =>
    rw [List.mem_singleton.mp hcmd]
    exact hshort _ (by decide)
  | 1 =>
    rw [List.mem_singleton.mp hcmd]
    trivial
  | 2 =>
    rw [List.mem_singleton.mp hcmd]
    trivial
  | _ + 3 => cases hcmd

/-- The third core waits for the transmitter to empty, and both characters get out. -/
def orderly : List Event := [1, 2, 1, 1, 1, 2, 1].map .core ++ [.drain] ++ [2, 2, 2, 2].map .core

/-- The message in its colour; two characters one after the other, and the lost one. -/
theorem console_output_three :
    texts hiEnv (infoPrograms 0) =
      [0x1b, ch '[', ch '3', ch '2', ch 'm', ch 'h', ch 'i', 0x1b, ch '[', ch '0', ch 'm'] ∧
    (∃ s, run (step hiEnv 1) (initial infoPrograms) orderly = some s ∧ s.lost = [] ∧
      s.sent ++ s.fifo = [ch '!', ch '?']) ∧
    ∃ s, run (step hiEnv 1) (initial infoPrograms) overrun = some s ∧
      byCore 0 s.wire <+: texts hiEnv (infoPrograms 0) ∧ byCore 1 s.wire = [ch '!'] ∧
      byCore 2 s.wire = [ch '?'] ∧ s.lost = [(2, ch '?')] := by
  refine ⟨by decide, ?_, ?_⟩
  · obtain ⟨s, hrun, _, _, hkept⟩ := console_output hiEnv 1 infoPrograms infoPrograms_return orderly
    have halone : Along (step hiEnv 1) Alone (initial infoPrograms) orderly :=
      along_alone (n := 3) orderly _ (fun _ _ h => h.elim) (by decide +kernel)
    obtain ⟨hlost, hall⟩ := hkept halone
    refine ⟨s, hrun, hlost, hall.trans ?_⟩
    rw [← Option.some.inj hrun]
    rfl
  · obtain ⟨s, hrun, hpre, _⟩ := console_output hiEnv 1 infoPrograms infoPrograms_return overrun
    refine ⟨s, hrun, hpre 0, ?_⟩
    rw [← Option.some.inj hrun]
    exact ⟨rfl, rfl, rfl⟩

end Dmos.Proofs.ConsoleOutput
