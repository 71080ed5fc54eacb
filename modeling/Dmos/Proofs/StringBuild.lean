import Mathlib.Data.Set.Disjoint
import Dmos.Proofs.StringSearch

namespace Dmos.Proofs.StringBuild
open Lib Lib.Memory Strings Printf StringSearch

variable {μ : Type} [Memory μ] {m u : μ} {a dest src : Word} {s t : List Byte} {fuel size : Nat}

/-- The two memories differ in the buffer only. -/
def Outside (m u : μ) (dest : Word) (size : Nat) : Prop := ∀ c ∉ span dest size, load u c = load m c

theorem Outside.keeps (h : Outside m u dest size) (hs : Holds m a s)
    (hb : a.toNat + s.length ≤ 2 ^ 64) (hap : Disjoint (span a s.length) (span dest size)) :
    Holds u a s :=
  hs.congr hb fun c hc => h c fun hin => Set.disjoint_left.mp hap hc hin

theorem Outside.store (h : Outside m u dest size) {c : Word} (hc : c ∈ span dest size) (v : Byte) :
    Outside m (Memory.store u c v) dest size := by
  intro d hd
  have hne : d ≠ c := fun heq => hd (heq ▸ hc)
  rw [load_store, if_neg hne]
  exact h d hd

theorem span_subset {p : Word} {k : Nat} (hp : dest.toNat ≤ p.toNat)
    (hk : p.toNat + k ≤ dest.toNat + size) : span p k ⊆ span dest size := by
  intro c hc
  rw [mem_span] at hc ⊢
  omega

theorem Outside.widen {p : Word} {k : Nat} (h : Outside m u p k) (hsub : span p k ⊆ span dest size) :
    Outside m u dest size :=
  fun c hc => h c fun hin => hc (hsub hin)

theorem Outside.trans {v : μ} (h : Outside m u dest size) (h' : Outside u v dest size) :
    Outside m v dest size :=
  fun c hc => (h' c hc).trans (h c hc)

theorem findEnd_eq (hs : 0 ∉ s) (h : Holds m a (s ++ [0])) (hf : s.length < fuel) :
    findEnd m fuel a = some (cell a s.length) := by
  induction s generalizing fuel a with
  | nil =>
    obtain ⟨fuel, rfl⟩ := Nat.exists_eq_add_one.mpr hf
    rw [findEnd, if_neg (not_not.mpr (load_end h)), List.length_nil, cell_zero]
  | cons x s ih =>
    obtain ⟨fuel, rfl⟩ := Nat.exists_eq_add_one.mpr (Nat.zero_lt_of_lt hf)
    obtain ⟨hx, hrest⟩ := load_first h
    have hne : load m a ≠ 0 := fun h0 => hs (by rw [← hx, h0]; exact List.mem_cons_self)
    rw [findEnd, if_pos hne, ih (fun h0 => hs (List.mem_cons_of_mem x h0)) hrest
      (by rw [List.length_cons] at hf; omega)]
    congr 1
    show cell (cell a 1) s.length = _
    rw [cell_cell, List.length_cons, Nat.add_comm]

/-- The copy loop with `k` bytes and the terminator to go; the first `i` bytes are in place
and the source is still what it was. -/
theorem copyLoop_eq {p : Word} (ht : 0 ∉ t) (hsrc : Holds m src (t ++ [0]))
    (hp : p.toNat + (t.length + 1) ≤ 2 ^ 64) (hs : src.toNat + (t.length + 1) ≤ 2 ^ 64)
    (hap : Disjoint (span src (t.length + 1)) (span p (t.length + 1))) (k : Nat) :
    ∀ {i fuel : Nat} {u : μ}, i + k = t.length → k < fuel → Holds u p (t.take i) →
      Outside m u p (t.length + 1) →
      ∃ u', copyLoop fuel (cell p i) (cell src i) u = some u' ∧ Holds u' p (t ++ [0]) ∧
        Outside m u' p (t.length + 1) := by
  induction k with
  | zero =>
    intro i fuel u hi hf hheld hout
    obtain ⟨fuel, rfl⟩ := Nat.exists_eq_add_one.mpr hf
    obtain rfl : i = t.length := hi
    have hall : Holds u src (t ++ [0]) := hout.keeps hsrc (by simpa using hs) (by simpa using hap)
    have hzero : load u (cell src t.length) = 0 := load_end hall.right
    rw [List.take_length] at hheld
    refine ⟨Memory.store u (cell p t.length) 0, ?_, hheld.push (by omega) 0,
      hout.store (cell_mem_span (by omega) (by omega)) 0⟩
    rw [copyLoop, hzero, if_neg (not_not.mpr rfl)]
  | succ k ih =>
    intro i fuel u hi hf hheld hout
    obtain ⟨fuel, rfl⟩ := Nat.exists_eq_add_one.mpr (Nat.zero_lt_of_lt hf)
    have hlt : i < t.length := by omega
    have hall : Holds u src (t ++ [0]) := hout.keeps hsrc (by simpa using hs) (by simpa using hap)
    have hbyte : load u (cell src i) = t.get ⟨i, hlt⟩ := hall.left i hlt
    have hne : t.get ⟨i, hlt⟩ ≠ 0 := fun h0 => ht (h0 ▸ List.get_mem t ⟨i, hlt⟩)
    have hlen : (t.take i).length = i := List.length_take_of_le (by omega)
    have hpush := hheld.push (by rw [hlen]; omega) (t.get ⟨i, hlt⟩)
    rw [hlen] at hpush
    rw [copyLoop, hbyte, if_pos hne, cell_succ, cell_succ]
    refine ih (by omega) (by omega) ?_ (hout.store (cell_mem_span (by omega) (by omega)) _)
    rw [List.take_succ_eq_append_getElem hlt]
    exact hpush

/-- `strcat` where the string it makes fits the buffer and the source is elsewhere. -/
theorem strcat_eq (hs : 0 ∉ s) (ht : 0 ∉ t) (hdest : Holds m dest (s ++ [0]))
    (hsrc : Holds m src (t ++ [0])) (hd : dest.toNat + size ≤ 2 ^ 64)
    (hfit : s.length + t.length < size) (hb : src.toNat + (t.length + 1) ≤ 2 ^ 64)
    (hap : Disjoint (span src (t.length + 1)) (span dest size)) (hf : s.length + t.length < fuel) :
    ∃ u, strcat fuel m dest src = some u ∧ Holds u dest (s ++ t ++ [0]) ∧ Outside m u dest size := by
  have hp : (cell dest s.length).toNat = dest.toNat + s.length := toNat_cell (by omega)
  have hsub : span (cell dest s.length) (t.length + 1) ⊆ span dest size :=
    span_subset (by omega) (by omega)
  obtain ⟨u, hu, hheld, hout⟩ := copyLoop_eq ht hsrc (by omega) hb (hap.mono_right hsub) t.length
    (Nat.zero_add _) (show t.length < fuel by omega)
    (show Holds m (cell dest s.length) (t.take 0) from fun i hi => absurd hi (Nat.not_lt_zero i))
    (fun _ _ => rfl)
  rw [cell_zero, cell_zero] at hu
  refine ⟨u, ?_, ?_, hout.widen hsub⟩
  · rw [strcat, findEnd_eq hs hdest (by omega)]
    exact hu
  · have hfront : Holds u dest s := by
      refine hout.keeps hdest.left (by omega) ?_
      rw [Set.disjoint_left]
      intro c hc hc'
      rw [mem_span] at hc hc'
      omega
    rw [List.append_assoc]
    exact hfront.append hheld

/-- A string that can be appended to the buffer: it is somewhere else. -/
structure Source (m : μ) (dest : Word) (size : Nat) (p : Word × CString) : Prop where
  held : StringAt m p.1 p.2
  bound : p.1.toNat + (p.2.bytes.length + 1) ≤ 2 ^ 64
  apart : Disjoint (span p.1 (p.2.bytes.length + 1)) (span dest size)

theorem Source.keep {p : Word × CString} (h : Source m dest size p) (hout : Outside m u dest size) :
    Source u dest size p :=
  ⟨hout.keeps h.held (by simpa using h.bound) (by simpa using h.apart), h.bound, h.apart⟩

/-- The bytes of some strings one after the other. -/
def text (ps : List (Word × CString)) : List Byte := ps.flatMap fun p => p.2.bytes

/-- A run of `strcat`s. -/
theorem appended (hd : dest.toNat + size ≤ 2 ^ 64) (ps : List (Word × CString)) (hs : 0 ∉ s)
    (hdest : Holds m dest (s ++ [0])) (hsrc : ∀ p ∈ ps, Source m dest size p)
    (hfit : s.length + (text ps).length < size) (hf : s.length + (text ps).length < fuel) :
    ∃ u, ps.foldlM (fun m p => strcat fuel m dest p.1) m = some u ∧
      Holds u dest (s ++ text ps ++ [0]) ∧ Outside m u dest size := by
  induction ps generalizing m s with
  | nil => exact ⟨m, rfl, by simpa [text] using hdest, fun _ _ => rfl⟩
  | cons p ps ih =>
    have hp := hsrc p List.mem_cons_self
    have htext : text (p :: ps) = p.2.bytes ++ text ps := rfl
    rw [htext, List.length_append] at hfit hf
    obtain ⟨v, hv, hheld, hout⟩ := strcat_eq hs p.2.nonzero hdest hp.held hd (by omega) hp.bound
      hp.apart (show s.length + p.2.bytes.length < fuel by omega)
    have hs' : 0 ∉ s ++ p.2.bytes := by
      rw [List.mem_append]
      exact not_or.mpr ⟨hs, p.2.nonzero⟩
    obtain ⟨u, hu, hall, hout'⟩ := ih hs' hheld
      (fun q hq => (hsrc q (List.mem_cons_of_mem p hq)).keep hout)
      (by rw [List.length_append]; omega) (by rw [List.length_append]; omega)
    refine ⟨u, ?_, ?_, hout.trans hout'⟩
    · rw [List.foldlM_cons, hv]
      exact hu
    · rw [htext, ← List.append_assoc s]
      exact hall

/-- A `strcpy` and any number of `strcat`s into a buffer with room for the result leave in it
the strings one after the other, as long as each of them lies outside the buffer; nothing
outside the buffer changes. -/
theorem strings_joined {μ : Type} [Memory μ] (m : μ) (dest : Word) (size fuel : Nat)
    (first : Word × CString) (rest : List (Word × CString)) (hd : dest.toNat + size ≤ 2 ^ 64)
    (hsrc : ∀ p ∈ first :: rest, Source m dest size p)
    (hfit : (text (first :: rest)).length < size) (hf : (text (first :: rest)).length < fuel) :
    ∃ u, (strcpy fuel m dest first.1).bind
        (rest.foldlM fun m p => strcat fuel m dest p.1) = some u ∧
      Holds u dest (text (first :: rest) ++ [0]) ∧
      ∀ c ∉ span dest size, load u c = load m c := by
  have hin : dest ∈ span dest size := by
    rw [mem_span]
    omega
  have hout : Outside m (store m dest 0) dest size := Outside.store (fun _ _ => rfl) hin 0
  have hempty : Holds (store m dest 0) dest ([] ++ [0]) := by
    have hnil : Holds m dest [] := fun i hi => absurd hi (Nat.not_lt_zero i)
    simpa using hnil.push (by rw [List.length_nil]; omega) 0
  obtain ⟨u, hu, hheld, hout'⟩ := appended hd (first :: rest) List.not_mem_nil hempty
    (fun p hp => (hsrc p hp).keep hout) (by simpa using hfit) (show _ < fuel by simpa using hf)
  exact ⟨u, hu, by simpa using hheld, hout.trans hout'⟩

/-- `"ab"` at `0x100` joined with itself at `0x200`. -/
theorem strings_joined_twice :
    let s : CString := ⟨[0x61, 0x62], by decide⟩
    let m : Word → Byte := fun a => (s.bytes ++ [0]).getD (a.toNat - 0x100) 0
    ∃ u, (strcpy 5 m 0x200 0x100).bind (fun m => strcat 5 m 0x200 0x100) = some u ∧
      Holds u 0x200 [0x61, 0x62, 0x61, 0x62, 0] := by
  intro s m
  have hsrc : Source m 0x200 8 (0x100, s) := by
    refine ⟨fun i hi => ?_, by decide, ?_⟩
    · have hlt : i < 3 := hi
      interval_cases i <;> simp [m, s, load, cell]
    · rw [Set.disjoint_left]
      intro c hc hc'
      have hlow : c.toNat < 0x103 := hc.2
      have hhigh : 0x200 ≤ c.toNat := hc'.1
      omega
  obtain ⟨u, hu, hheld, -⟩ := strings_joined m 0x200 8 5 (0x100, s) [(0x100, s)] (by decide)
    (by
      intro p hp
      obtain rfl : p = (0x100, s) := by simpa using hp
      exact hsrc)
    (by decide) (by decide)
  refine ⟨u, ?_, hheld⟩
  have hone : (fun v => [((0x100 : Word), s)].foldlM (fun v p => strcat 5 v 0x200 p.1) v) =
      fun v : Word → Byte => strcat 5 v 0x200 0x100 := by
    funext v
    simp
  rw [hone] at hu
  exact hu

end Dmos.Proofs.StringBuild
