import Dmos.Uart

namespace Dmos.Proofs.Receive

open Dmos.Lib Dmos.Uart Dmos.Uart.State

variable {s s' : State}

/-- What a `getc` in progress knows: the ring is not empty, and which character is
first. -/
def GetcOk (s : State) : Getc → Prop
  | .load => s.rxReadIdx ≠ s.rxWriteIdx
  | .advance c => s.rxReadIdx ≠ s.rxWriteIdx ∧ s.rxBuffer s.rxReadIdx = c
  | _ => True

/-- What the handler knows: the next index, that there is room for it, and that the
byte is in its cell. -/
def HandlerOk (s : State) : Handler → Prop
  | .rxFull _ next => next = (s.rxWriteIdx + 1) % bufferSize
  | .rxStore _ next => next = (s.rxWriteIdx + 1) % bufferSize ∧ next ≠ s.rxReadIdx
  | .rxPublish c next =>
    next = (s.rxWriteIdx + 1) % bufferSize ∧ next ≠ s.rxReadIdx ∧ s.rxBuffer s.rxWriteIdx = c
  | _ => True

/-- The character that `getc` has taken out of the ring and is about to return. -/
def inHand : Getc → List (BitVec 8)
  | .ret c => [c]
  | _ => []

/-- The byte that the handler has read and not yet stored or discarded. The ring is
as it was when the byte was read. -/
def pending (s : State) : Handler → List (BitVec 8 × Nat)
  | .rxNext c => [(c, s.rxRing.length)]
  | .rxFull c _ => [(c, s.rxRing.length)]
  | .rxStore c _ => [(c, s.rxRing.length)]
  | .rxPublish c _ => [(c, s.rxRing.length)]
  | _ => []

/-- The bytes that found room in the ring, and those that did not. -/
def roomy (l : List (BitVec 8 × Nat)) : List (BitVec 8) :=
  (l.filter fun p => p.2 ≠ bufferSize - 1).map Prod.fst

def crowded (l : List (BitVec 8 × Nat)) : List (BitVec 8) :=
  (l.filter fun p => p.2 = bufferSize - 1).map Prod.fst

structure Inv (s : State) : Prop where
  read_lt : s.rxReadIdx < bufferSize
  write_lt : s.rxWriteIdx < bufferSize
  conserved : s.accepted = s.returned ++ inHand s.getc ++ s.rxRing
  getc : GetcOk s s.getc
  handler : HandlerOk s s.handler
  verdict : ∃ decided, s.received = decided ++ pending s s.handler ∧
    s.accepted = roomy decided ∧ s.discarded = crowded decided

theorem initial_inv : Inv initial.uartAdvanceInit where
  read_lt := by decide
  write_lt := by decide
  conserved := rfl
  getc := trivial
  handler := trivial
  verdict := ⟨[], rfl, rfl, rfl⟩

/-- The receive side of the state. -/
def rxView (s : State) :=
  (s.rxReadIdx, s.rxWriteIdx, s.rxBuffer, s.getc, s.received, s.accepted, s.discarded, s.returned)

/-- A step of another program, or of the handler elsewhere in its code. -/
theorem Inv.frame (h : Inv s) (hv : rxView s' = rxView s) (hok : HandlerOk s s'.handler)
    (hp : pending s s'.handler = pending s s.handler) : Inv s' := by
  have hvd := h.verdict
  rw [← hp] at hvd
  cases s
  cases s'
  simp only [rxView, Prod.mk.injEq] at hv
  obtain ⟨rfl, rfl, rfl, rfl, rfl, rfl, rfl, rfl⟩ := hv
  exact ⟨h.read_lt, h.write_lt, h.conserved, h.getc, hok, hvd⟩

theorem getc_inv (h : Inv s) (hi : s.handler = .idle) (hs : s.uartAdvanceGetc = some s') : Inv s' := by
  obtain ⟨hr, hw, hc, hg, hh, hv⟩ := h
  unfold uartAdvanceGetc at hs
  cases hq : s.getc with
  | idle => simp [hq] at hs
  | wait =>
    simp only [hq] at hs
    split at hs
    · obtain rfl := Option.some.inj hs
      exact ⟨hr, hw, hc, hg, hh, hv⟩
    · next hne =>
      obtain rfl := Option.some.inj hs
      rw [hq] at hc
      exact ⟨hr, hw, hc, hne, hh, hv⟩
  | load =>
    rw [hq] at hg hc
    simp only [hq, Option.some.injEq] at hs
    subst hs
    exact ⟨hr, hw, hc, ⟨hg, rfl⟩, hh, hv⟩
  | advance c =>
    rw [hq] at hg hc
    rw [hi] at hv
    simp only [hq, Option.some.injEq] at hs
    subst hs
    refine ⟨Ring.succ_lt hr, hw, ?_, trivial, by rw [hi]; trivial, by rw [hi]; exact hv⟩
    simp only [inHand, rxRing] at hc ⊢
    rw [hc, Ring.contents_pop hr hw hg.1, hg.2]
    simp
  | ret c =>
    rw [hq] at hc
    simp only [hq, Option.some.injEq] at hs
    subst hs
    refine ⟨hr, hw, ?_, trivial, hh, hv⟩
    simp only [inHand, rxRing, List.append_nil] at hc ⊢
    exact hc

theorem putc_inv (h : Inv s) (hs : s.uartAdvancePutc = some s') : Inv s' := by
  have hv : rxView s' = rxView s ∧ s'.handler = s.handler := by
    unfold uartAdvancePutc at hs
    cases hq : s.putc with
    | idle => simp [hq] at hs
    | wait c next =>
      simp only [hq] at hs
      split at hs <;> obtain rfl := Option.some.inj hs <;> exact ⟨rfl, rfl⟩
    | _ =>
      simp only [hq, Option.some.injEq] at hs
      subst hs
      exact ⟨rfl, rfl⟩
  exact h.frame hv.1 (hv.2 ▸ h.handler) (by rw [hv.2])

theorem roomy_append (l : List (BitVec 8 × Nat)) (c : BitVec 8) (n : Nat) :
    roomy (l ++ [(c, n)]) = if n ≠ bufferSize - 1 then roomy l ++ [c] else roomy l := by
  unfold roomy
  split
  · next h => simp [h]
  · next h => simp [Decidable.not_not.mp h]

theorem crowded_append (l : List (BitVec 8 × Nat)) (c : BitVec 8) (n : Nat) :
    crowded (l ++ [(c, n)]) = if n = bufferSize - 1 then crowded l ++ [c] else crowded l := by
  unfold crowded
  split
  · next h => simp [h]
  · next h => simp [h]

/-- The ring is full exactly when the next index is the read index. -/
theorem room_iff (hr : s.rxReadIdx < bufferSize) (hw : s.rxWriteIdx < bufferSize) :
    (s.rxWriteIdx + 1) % bufferSize = s.rxReadIdx ↔ s.rxRing.length = bufferSize - 1 := by
  rw [rxRing, Ring.length_contents, Ring.full_iff hr hw]

theorem full_inv {v : BitVec 32} {c : BitVec 8} {next : Nat} (h : Inv s)
    (hq : s.handler = .rxFull c next) (hs : s.uartInterruptHandler v = some s') : Inv s' := by
  obtain ⟨hr, hw, hc, hg, hh, decided, hrec, hacc, hdis⟩ := h
  rw [hq] at hh hrec
  simp only [uartInterruptHandler, hq] at hs
  split at hs
  · next hne =>
    obtain rfl := Option.some.inj hs
    exact ⟨hr, hw, hc, hg, ⟨hh, hne⟩, decided, hrec, hacc, hdis⟩
  · next hfull =>
    obtain rfl := Option.some.inj hs
    have hlen : s.rxRing.length = bufferSize - 1 :=
      (room_iff hr hw).mp (hh ▸ Decidable.not_not.mp hfull)
    refine ⟨hr, hw, hc, hg, trivial, decided ++ [(c, s.rxRing.length)], ?_, ?_, ?_⟩
    · rw [hrec]
      simp [pending]
    · rw [roomy_append, if_neg (by rw [hlen]; simp), hacc]
    · rw [crowded_append, if_pos hlen, hdis]

theorem store_inv {v : BitVec 32} {c : BitVec 8} {next : Nat} (h : Inv s)
    (hq : s.handler = .rxStore c next) (hs : s.uartInterruptHandler v = some s') : Inv s' := by
  obtain ⟨hr, hw, hc, hg, hh, hv⟩ := h
  rw [hq] at hh hv
  simp only [uartInterruptHandler, hq, Option.some.injEq] at hs
  have hring : s'.rxRing = s.rxRing := by
    subst hs
    rw [rxRing, rxRing, Ring.contents_update hr hw]
  subst hs
  refine ⟨hr, hw, by rw [hring]; exact hc, ?_, ⟨hh.1, hh.2, Function.update_self _ _ _⟩, ?_⟩
  · cases hp : s.getc with
    | load =>
      rw [hp] at hg
      exact hg
    | advance c' =>
      rw [hp] at hg
      exact ⟨hg.1, (Function.update_of_ne hg.1 _ _).trans hg.2⟩
    | _ => trivial
  · simp only [pending, hring] at hv ⊢
    exact hv

theorem publish_inv {v : BitVec 32} {c : BitVec 8} {next : Nat} (h : Inv s)
    (hq : s.handler = .rxPublish c next) (hs : s.uartInterruptHandler v = some s') : Inv s' := by
  obtain ⟨hr, hw, hc, hg, hh, decided, hrec, hacc, hdis⟩ := h
  rw [hq] at hh hrec
  obtain ⟨rfl, hne, hcell⟩ := hh
  simp only [uartInterruptHandler, hq, Option.some.injEq] at hs
  subst hs
  have hlen : s.rxRing.length ≠ bufferSize - 1 := fun h => hne ((room_iff hr hw).mpr h)
  refine ⟨hr, Ring.succ_lt hw, ?_, ?_, trivial, decided ++ [(c, s.rxRing.length)], ?_, ?_, ?_⟩
  · simp only [rxRing] at hc ⊢
    rw [hc, Ring.contents_push hr hw hne, hcell, List.append_assoc]
  · cases hp : s.getc with
    | load => exact hne.symm
    | advance c' =>
      rw [hp] at hg
      exact ⟨hne.symm, hg.2⟩
    | _ => trivial
  · rw [hrec]
    simp [pending]
  · rw [roomy_append, if_pos hlen, hacc]
  · rw [crowded_append, if_neg hlen, hdis]

theorem handler_inv {v : BitVec 32} (h : Inv s) (hs : s.uartInterruptHandler v = some s') :
    Inv s' := by
  cases hq : s.handler with
  | idle => simp [uartInterruptHandler, hq] at hs
  | rxRead =>
    obtain ⟨hr, hw, hc, hg, -, decided, hrec, hacc, hdis⟩ := h
    rw [hq] at hrec
    simp only [uartInterruptHandler, hq, Option.some.injEq] at hs
    subst hs
    refine ⟨hr, hw, hc, hg, trivial, decided, ?_, hacc, hdis⟩
    simp only [hrec, pending, List.append_nil]
    rfl
  | rxNext c =>
    simp only [uartInterruptHandler, hq, Option.some.injEq] at hs
    subst hs
    exact h.frame rfl rfl (by rw [hq]; rfl)
  | rxFull c next => exact full_inv h hq hs
  | rxStore c next => exact store_inv h hq hs
  | rxPublish c next => exact publish_inv h hq hs
  | rxTest | rxLoop | txTest | txLoop | txDrained =>
    simp only [uartInterruptHandler, hq] at hs
    split at hs <;> obtain rfl := Option.some.inj hs <;>
      exact h.frame rfl trivial (by rw [hq]; rfl)
  | rxClear | txWrite | txAdvance | txDisable | txClear =>
    simp only [uartInterruptHandler, hq, Option.some.injEq] at hs
    subst hs
    exact h.frame rfl trivial (by rw [hq]; rfl)

theorem step_inv {e : Event} (h : Inv s) (hs : step s e = some s') : Inv s' := by
  cases e with
  | callPutc c =>
    simp only [step] at hs
    split at hs
    · obtain rfl := Option.some.inj hs
      exact h.frame rfl h.handler rfl
    · cases hs
  | putc =>
    simp only [step] at hs
    split at hs
    · exact putc_inv h hs
    · cases hs
  | callGetc =>
    simp only [step] at hs
    split at hs
    · next hi =>
      obtain rfl := Option.some.inj hs
      have hc := h.conserved
      rw [hi.2] at hc
      exact ⟨h.read_lt, h.write_lt, hc, trivial, h.handler, h.verdict⟩
    · cases hs
  | getc =>
    simp only [step] at hs
    split at hs
    · next hi => exact getc_inv h hi hs
    · cases hs
  | interrupt =>
    simp only [step] at hs
    split at hs
    · next hi =>
      obtain rfl := Option.some.inj hs
      exact h.frame rfl trivial (by rw [hi]; rfl)
    · cases hs
  | handler v => exact handler_inv h hs

theorem run_inv {es : List Event} (hrun : run step initial.uartAdvanceInit es = some s) : Inv s :=
  run_always (fun _ _ _ h hs => step_inv h hs) es _ s initial_inv hrun

/-- In every interleaving of `getc`, `putc` and the handler, with whatever the
handler reads from the device, the accepted characters are those that `getc` has
returned, the one that it is just returning, and the ring, in this order. A byte
is accepted or discarded by the number of characters that were in the ring when it
was read from `UART0_DR`. -/
theorem receive_ring (es : List Event) (s : State)
    (hrun : run step initial.uartAdvanceInit es = some s) :
    s.returned <+: s.accepted ∧
      s.accepted = s.returned ++ inHand s.getc ++ s.rxRing ∧
      (s.getc = .idle → s.accepted = s.returned ++ s.rxRing) ∧
      ∃ decided, s.received = decided ++ pending s s.handler ∧
        s.accepted = (decided.filter fun p => p.2 ≠ bufferSize - 1).map Prod.fst ∧
        s.discarded = (decided.filter fun p => p.2 = bufferSize - 1).map Prod.fst := by
  have h := run_inv hrun
  refine ⟨⟨inHand s.getc ++ s.rxRing, ?_⟩, h.conserved, fun hi => ?_, h.verdict⟩
  · rw [h.conserved, List.append_assoc]
  · rw [h.conserved, hi]
    simp [inHand]

/-- What the handler does with a byte that finds room, and with one that does not. -/
def taken (c : BitVec 8) : List Event := [0, c.setWidth 32, 0, 0, 0, 0].map .handler
def refused (c : BitVec 8) : List Event := [0, c.setWidth 32, 0, 0].map .handler

def entry : List Event := [.interrupt, .handler 0x10]
def exit : List Event := [0x10, 0, 0].map .handler

/-- An interrupt fills the ring and one byte is refused; `getc` takes a byte out, and
the next one goes to the last cell, behind which the index starts again. -/
def fullRing : List Event :=
  entry ++ taken 0x41 ++ (List.replicate 1022 (taken 0x42)).flatten ++ refused 0x43 ++ exit ++
    [.callGetc, .getc, .getc, .getc, .getc] ++ entry ++ taken 0x44 ++ exit

theorem receive_ring_full :
    ∃ s, run step initial.uartAdvanceInit fullRing = some s ∧ s.returned = [0x41] ∧
      s.discarded = [0x43] ∧ s.rxReadIdx = 1 ∧ s.rxWriteIdx = 0 ∧ s.accepted = 0x41 :: s.rxRing := by
  have hval : (run step initial.uartAdvanceInit fullRing).map (fun s =>
      (s.getc, s.returned, s.discarded, s.rxReadIdx, s.rxWriteIdx)) =
      some (.idle, [0x41], [0x43], 1, 0) := by decide +kernel
  obtain ⟨s, hrun, hs⟩ := Option.map_eq_some_iff.mp hval
  simp only [Prod.mk.injEq] at hs
  obtain ⟨hidle, hret, hdis, hread, hwrite⟩ := hs
  have hacc := (receive_ring fullRing s hrun).2.2.1 hidle
  rw [hret] at hacc
  exact ⟨s, hrun, hret, hdis, hread, hwrite, hacc⟩

end Dmos.Proofs.Receive
