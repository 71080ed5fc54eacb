import Dmos.Uart

namespace Dmos.Proofs.Transmit

open Dmos.Lib Dmos.Uart Dmos.Uart.State

variable {s s' : State}

/-- What a `putc` in progress knows: the next index, that there is room for it, and
that the character is in its cell. -/
def PutcOk (s : State) : Putc → Prop
  | .wait _ next => next = (s.txWriteIdx + 1) % bufferSize
  | .store _ next => next = (s.txWriteIdx + 1) % bufferSize ∧ next ≠ s.txReadIdx
  | .publish c next =>
    next = (s.txWriteIdx + 1) % bufferSize ∧ next ≠ s.txReadIdx ∧ s.txBuffer s.txWriteIdx = c
  | _ => True

/-- What the handler knows of the ring. -/
def HandlerOk (s : State) : Handler → Prop
  | .txWrite => s.txReadIdx ≠ s.txWriteIdx
  | .txAdvance => s.txReadIdx ≠ s.txWriteIdx
  | .txDisable => s.txReadIdx = s.txWriteIdx
  | _ => True

/-- The characters still to be written: the ring, but for the one that the handler
has just written. -/
def unsent (s : State) : Handler → List (BitVec 8)
  | .txAdvance => s.txRing.tail
  | _ => s.txRing

theorem unsent_eq {p : Handler} (hp : p ≠ .txAdvance) : unsent s p = s.txRing := by
  cases p with
  | txAdvance => exact absurd rfl hp
  | _ => rfl

/-- A `putc` that has published its character and not yet enabled the interrupt. -/
def Enabling : Putc → Prop
  | .readImsc => True
  | .writeImsc _ => True
  | _ => False

structure Inv (s : State) : Prop where
  read_lt : s.txReadIdx < bufferSize
  write_lt : s.txWriteIdx < bufferSize
  conserved : s.stored = s.written ++ unsent s s.handler
  putc : PutcOk s s.putc
  handler : HandlerOk s s.handler
  wake : s.txReadIdx ≠ s.txWriteIdx → s.imsc.getLsbD 5 = true ∨ Enabling s.putc

theorem initial_inv : Inv initial.uartAdvanceInit where
  read_lt := by decide
  write_lt := by decide
  conserved := rfl
  putc := trivial
  handler := trivial
  wake := fun h => absurd rfl h

/-- The transmit side of the state. -/
def txView (s : State) :=
  (s.txReadIdx, s.txWriteIdx, s.txBuffer, s.imsc, s.putc, s.stored, s.written)

/-- A step of another program, or of the handler elsewhere in its code. -/
theorem Inv.frame (h : Inv s) (hv : txView s' = txView s) (hs : s.handler ≠ .txAdvance)
    (hs' : s'.handler ≠ .txAdvance) (hok : HandlerOk s s'.handler) : Inv s' := by
  have hc := h.conserved
  rw [unsent_eq hs] at hc
  cases s
  cases s'
  simp only [txView, Prod.mk.injEq] at hv
  obtain ⟨rfl, rfl, rfl, rfl, rfl, rfl, rfl⟩ := hv
  exact ⟨h.read_lt, h.write_lt, by rw [unsent_eq hs']; exact hc, h.putc, hok, h.wake⟩

theorem getLsbD_set (imsc : BitVec 32) : (imsc ||| 0x20).getLsbD 5 = true := by
  rw [BitVec.getLsbD_or, show (0x20 : BitVec 32).getLsbD 5 = true by decide, Bool.or_true]

theorem putc_inv (h : Inv s) (hi : s.handler = .idle) (hs : s.uartAdvancePutc = some s') : Inv s' := by
  obtain ⟨hr, hw, hc, hp, hh, hwake⟩ := h
  unfold uartAdvancePutc at hs
  cases hq : s.putc with
  | idle => simp [hq] at hs
  | next c =>
    simp only [hq, Option.some.injEq] at hs hwake
    subst hs
    exact ⟨hr, hw, hc, rfl, hh, hwake⟩
  | wait c next =>
    rw [hq] at hp
    simp only [hq] at hs
    split at hs
    · obtain rfl := Option.some.inj hs
      exact ⟨hr, hw, hc, hq ▸ hp, hh, hwake⟩
    · next hne =>
      obtain rfl := Option.some.inj hs
      rw [hq] at hwake
      exact ⟨hr, hw, hc, ⟨hp, hne⟩, hh, hwake⟩
  | store c next =>
    rw [hq] at hp
    simp only [hq, Option.some.injEq] at hs hwake
    subst hs
    refine ⟨hr, hw, ?_, ⟨hp.1, hp.2, Function.update_self _ _ _⟩, hh, hwake⟩
    rw [hi] at hc ⊢
    simp only [unsent, txRing] at hc ⊢
    rw [hc, Ring.contents_update hr hw]
  | publish c next =>
    rw [hq] at hp
    simp only [hq, Option.some.injEq] at hs
    subst hs
    obtain ⟨rfl, hne, hcell⟩ := hp
    refine ⟨hr, Ring.succ_lt hw, ?_, trivial, by rw [hi]; trivial, fun _ => .inr trivial⟩
    rw [hi] at hc ⊢
    simp only [unsent, txRing] at hc ⊢
    rw [hc, Ring.contents_push hr hw hne, hcell, List.append_assoc]
  | readImsc =>
    simp only [hq, Option.some.injEq] at hs
    subst hs
    exact ⟨hr, hw, hc, trivial, hh, fun _ => .inr trivial⟩
  | writeImsc imsc =>
    simp only [hq, Option.some.injEq] at hs
    subst hs
    exact ⟨hr, hw, hc, trivial, hh, fun _ => .inl (getLsbD_set imsc)⟩

theorem getc_inv (h : Inv s) (hi : s.handler = .idle) (hs : s.uartAdvanceGetc = some s') : Inv s' := by
  have hv : txView s' = txView s ∧ s'.handler = .idle := by
    unfold uartAdvanceGetc at hs
    cases hq : s.getc with
    | idle => simp [hq] at hs
    | wait =>
      simp only [hq] at hs
      split at hs <;> obtain rfl := Option.some.inj hs <;> exact ⟨rfl, hi⟩
    | _ =>
      simp only [hq, Option.some.injEq] at hs
      subst hs
      exact ⟨rfl, hi⟩
  apply h.frame hv.1
  · rw [hi]
    exact Handler.noConfusion
  · rw [hv.2]
    exact Handler.noConfusion
  · rw [hv.2]
    trivial

/-- Emptying a cell leaves a `putc` in progress its room. -/
theorem putcOk_advance {p : Putc} (hr : s.txReadIdx < bufferSize) (hw : s.txWriteIdx < bufferSize)
    (hne : s.txReadIdx ≠ s.txWriteIdx) (hp : PutcOk s p) :
    PutcOk { s with txReadIdx := (s.txReadIdx + 1) % bufferSize, handler := .txLoop } p := by
  have hroom : (s.txWriteIdx + 1) % bufferSize ≠ (s.txReadIdx + 1) % bufferSize := by
    rw [Ring.succ_mod hr, Ring.succ_mod hw]
    split <;> split <;> omega
  cases p with
  | wait c next => exact hp
  | store c next => exact ⟨hp.1, hp.1 ▸ hroom⟩
  | publish c next => exact ⟨hp.1, hp.1 ▸ hroom, hp.2.2⟩
  | _ => trivial

theorem handler_inv {v : BitVec 32} (h : Inv s) (hs : s.uartInterruptHandler v = some s') :
    Inv s' := by
  unfold uartInterruptHandler at hs
  cases hq : s.handler with
  | idle => simp [hq] at hs
  | txWrite =>
    obtain ⟨hr, hw, hc, hp, hh, hwake⟩ := h
    rw [hq] at hc hh
    simp only [hq, Option.some.injEq] at hs
    subst hs
    refine ⟨hr, hw, ?_, hp, hh, hwake⟩
    simp only [unsent, txRing] at hc ⊢
    rw [hc, Ring.contents_pop hr hw hh]
    simp
  | txAdvance =>
    obtain ⟨hr, hw, hc, hp, hh, hwake⟩ := h
    rw [hq] at hc hh
    simp only [hq, Option.some.injEq] at hs
    subst hs
    refine ⟨Ring.succ_lt hr, hw, ?_, putcOk_advance hr hw hh hp, trivial, fun _ => hwake hh⟩
    simp only [unsent, txRing] at hc ⊢
    rw [hc, Ring.contents_pop hr hw hh, List.tail_cons]
  | txDisable =>
    obtain ⟨hr, hw, hc, hp, hh, hwake⟩ := h
    rw [hq] at hc hh
    simp only [hq, Option.some.injEq] at hs
    subst hs
    exact ⟨hr, hw, hc, hp, trivial, fun hne => absurd hh hne⟩
  | txLoop =>
    have hna : s.handler ≠ .txAdvance := by rw [hq]; exact Handler.noConfusion
    simp only [hq] at hs
    split at hs
    · next hmore =>
      obtain rfl := Option.some.inj hs
      exact h.frame rfl hna Handler.noConfusion hmore.2
    · obtain rfl := Option.some.inj hs
      exact h.frame rfl hna Handler.noConfusion trivial
  | txDrained =>
    have hna : s.handler ≠ .txAdvance := by rw [hq]; exact Handler.noConfusion
    simp only [hq] at hs
    split at hs
    · next hempty =>
      obtain rfl := Option.some.inj hs
      exact h.frame rfl hna Handler.noConfusion hempty
    · obtain rfl := Option.some.inj hs
      exact h.frame rfl hna Handler.noConfusion trivial
  | rxTest | rxLoop | rxFull c next | txTest =>
    have hna : s.handler ≠ .txAdvance := by rw [hq]; exact Handler.noConfusion
    simp only [hq] at hs
    split at hs <;> obtain rfl := Option.some.inj hs <;>
      exact h.frame rfl hna Handler.noConfusion trivial
  | rxRead | rxNext c | rxStore c next | rxPublish c next | rxClear | txClear =>
    have hna : s.handler ≠ .txAdvance := by rw [hq]; exact Handler.noConfusion
    simp only [hq] at hs
    obtain rfl := Option.some.inj hs
    exact h.frame rfl hna Handler.noConfusion trivial

theorem step_inv {e : Event} (h : Inv s) (hs : step s e = some s') : Inv s' := by
  have hidle : s.handler = .idle → s.handler ≠ .txAdvance := fun hi => by
    rw [hi]
    exact Handler.noConfusion
  cases e with
  | callPutc c =>
    simp only [step] at hs
    split at hs
    · next hi =>
      obtain rfl := Option.some.inj hs
      have hwake := h.wake
      rw [hi.2] at hwake
      exact ⟨h.read_lt, h.write_lt, h.conserved, trivial, h.handler, hwake⟩
    · cases hs
  | putc =>
    simp only [step] at hs
    split at hs
    · next hi => exact putc_inv h hi hs
    · cases hs
  | callGetc =>
    simp only [step] at hs
    split at hs
    · next hi =>
      obtain rfl := Option.some.inj hs
      exact h.frame rfl (hidle hi.1) (hidle hi.1) h.handler
    · cases hs
  | getc =>
    simp only [step] at hs
    split at hs
    · next hi => exact getc_inv h hi hs
    · cases hs
  | interrupt =>
    simp only [step] at hs
    split at hs
    · next hi =>
      obtain rfl := Option.some.inj hs
      exact h.frame rfl (hidle hi) Handler.noConfusion trivial
    · cases hs
  | handler v => exact handler_inv h hs

theorem run_inv {es : List Event} (hrun : run step initial.uartAdvanceInit es = some s) : Inv s :=
  run_always (fun _ _ _ h hs => step_inv h hs) es _ s initial_inv hrun

/-- A turn of the transmit loop, when the device has room. -/
theorem send_head (h : Inv s) (hq : s.handler = .txLoop) {c : BitVec 8} {r : List (BitVec 8)}
    (hring : s.txRing = c :: r) {v : BitVec 32} (hv : v &&& 0x20 = 0) (w u : BitVec 32) :
    ∃ s', run step s [.handler v, .handler w, .handler u] = some s' ∧ s'.handler = .txLoop ∧
      s'.written = s.written ++ [c] ∧ s'.txRing = r := by
  have hne : s.txReadIdx ≠ s.txWriteIdx := by
    intro heq
    have hnil : s.txRing = [] := (Ring.contents_eq_nil_iff h.read_lt h.write_lt).mpr heq
    rw [hnil] at hring
    cases hring
  rw [txRing, Ring.contents_pop h.read_lt h.write_lt hne, List.cons.injEq] at hring
  obtain ⟨rfl, rfl⟩ := hring
  refine ⟨{ s with
    written := s.written ++ [s.txBuffer s.txReadIdx]
    txReadIdx := (s.txReadIdx + 1) % bufferSize
    handler := .txLoop }, ?_, rfl, rfl, rfl⟩
  have htest : step s (.handler v) = some { s with handler := .txWrite } := by
    simp only [step, uartInterruptHandler, hq]
    exact if_pos ⟨hv, hne⟩
  rw [run_cons, htest]
  rfl

/-- In every interleaving of `putc`, `getc` and the handler, with whatever the
handler reads from the device, the characters written to `UART0_DR` are the first
of those that `putc` has stored, and the ring holds the rest. Only while the
handler stands between writing a character and advancing `tx_read_idx` is that
character in both. The ring is never left with characters and the interrupt off. A
transmit interrupt takes the handler to its loop, and a turn of the loop writes the
head of the ring when the device has room. -/
theorem transmit_ring (es : List Event) (s : State)
    (hrun : run step initial.uartAdvanceInit es = some s) :
    s.written <+: s.stored ∧
      (s.handler ≠ .txAdvance → s.stored = s.written ++ s.txRing) ∧
      (s.handler = .txAdvance → s.txRing ≠ [] ∧ s.stored = s.written ++ s.txRing.tail) ∧
      s.txRing.length ≤ 1023 ∧ s.txReadIdx < bufferSize ∧ s.txWriteIdx < bufferSize ∧
      (s.putc = .idle → s.handler = .idle → s.txRing ≠ [] → s.imsc.getLsbD 5 = true) ∧
      (∀ v, s.handler = .txTest → v &&& 0x20 ≠ 0 →
        step s (.handler v) = some { s with handler := .txLoop }) ∧
      ∀ c r v w u, s.handler = .txLoop → s.txRing = c :: r → v &&& 0x20 = 0 →
        ∃ s', run step s [.handler v, .handler w, .handler u] = some s' ∧ s'.handler = .txLoop ∧
          s'.written = s.written ++ [c] ∧ s'.txRing = r := by
  have h := run_inv hrun
  have hlen := Ring.used_lt (w := s.txWriteIdx) h.read_lt
  refine ⟨⟨_, h.conserved.symm⟩, fun hp => ?_, fun hp => ?_, ?_, h.read_lt, h.write_lt,
    fun hp _ hne => ?_, fun v hp hv => ?_,
    fun c r v w u hp hring hv => send_head h hp hring hv w u⟩
  · rw [h.conserved, unsent_eq hp]
  · have hc := h.conserved
    have hok := h.handler
    rw [hp] at hc hok
    exact ⟨fun hnil => hok ((Ring.contents_eq_nil_iff h.read_lt h.write_lt).mp hnil), hc⟩
  · rw [txRing, Ring.length_contents]
    exact Nat.le_of_lt_succ hlen
  · have hwake := h.wake fun heq =>
      hne ((Ring.contents_eq_nil_iff h.read_lt h.write_lt).mpr heq)
    rw [hp] at hwake
    exact hwake.resolve_right id
  · simp only [step, uartInterruptHandler, hp]
    exact if_pos hv

/-- The handler cuts in before the index is stored, and the interrupt is off until
`putc` goes on. -/
theorem transmit_ring_cut :
    ∃ s, run step initial.uartAdvanceInit
        ([.callPutc 0x41, .putc, .putc, .putc, .interrupt] ++
          [0, 0x20, 0, 0, 0, 0].map .handler ++ [.putc, .putc, .putc]) = some s ∧
      s.putc = .idle ∧ s.handler = .idle ∧ s.txRing = [0x41] ∧ s.imsc.getLsbD 5 = true :=
  have h := transmit_ring ([.callPutc 0x41, .putc, .putc, .putc, .interrupt] ++
    [0, 0x20, 0, 0, 0, 0].map .handler ++ [.putc, .putc, .putc]) _ rfl
  ⟨_, rfl, rfl, rfl, rfl, h.2.2.2.2.2.2.1 rfl rfl (by decide)⟩

end Dmos.Proofs.Transmit
