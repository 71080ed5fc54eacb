import Mathlib.Tactic.IntervalCases
import Dmos.ThreadInfo

namespace Dmos.Proofs.PerCore
open Lib ThreadInfo

/-! ### The bytes of a structure -/

section Bytes

variable {m m' : Mem} {a ti : Word} {v : Word} {n j k : Nat}

/-- Bytes that are those of `v` are read as `v`. -/
theorem load_of_bytes (hn : n ≤ 8) (h : ∀ k < n, m (cell a k) = (v >>> (8 * k)).setWidth 8) {i : Nat}
    (hi : i < 8 * n) : (Bytes.load m a n).getLsbD i = v.getLsbD i := by
  have hbyte := h (i / 8) (by omega)
  have hmod : i % 8 < 8 := Nat.mod_lt _ (by decide)
  have hsum : 8 * (i / 8) + i % 8 = i := Nat.div_add_mod i 8
  unfold cell at hbyte
  rw [Bytes.getLsbD_load m a hn, hbyte, BitVec.getLsbD_setWidth, BitVec.getLsbD_ushiftRight, hsum]
  simp [hi, hmod]

theorem load32_of_bytes {w : BitVec 32} (h : ∀ k < 4, m (cell a k) = (w.setWidth 64 >>> (8 * k)).setWidth 8) :
    (Bytes.load m a 4).setWidth 32 = w := by
  apply BitVec.eq_of_getLsbD_eq
  intro i hi
  rw [BitVec.getLsbD_setWidth, load_of_bytes (by omega) h (by omega), BitVec.getLsbD_setWidth]
  simp [hi, show i < 64 by omega]

theorem load64_of_bytes (h : ∀ k < 8, m (cell a k) = (v >>> (8 * k)).setWidth 8) :
    Bytes.load m a 8 = v := by
  apply BitVec.eq_of_getLsbD_eq
  intro i hi
  exact load_of_bytes (Nat.le_refl 8) h hi

theorem load_congr (hn : n ≤ 8) (h : ∀ k < n, m' (cell a k) = m (cell a k)) :
    Bytes.load m' a n = Bytes.load m a n := by
  apply BitVec.eq_of_getLsbD_eq
  intro i hi
  rw [Bytes.getLsbD_load m' a hn, Bytes.getLsbD_load m a hn]
  by_cases hlt : i < 8 * n
  · have hbyte := h (i / 8) (by omega)
    unfold cell at hbyte
    rw [hbyte]
  · simp [hlt]

/-- A structure is kept when none of its bytes changes. -/
theorem readInfo_congr (h : ∀ k < 24, m' (cell ti k) = m (cell ti k)) :
    readInfo m' ti = readInfo m ti := by
  have hpart : ∀ j n, j + n ≤ 24 → n ≤ 8 → Bytes.load m' (cell ti j) n = Bytes.load m (cell ti j) n := by
    intro j n hj hn
    refine load_congr hn fun k hk => ?_
    rw [cell_cell]
    exact h _ (by omega)
  unfold readInfo
  rw [hpart 0 4 (by omega) (by omega), hpart 4 4 (by omega) (by omega),
    hpart 8 8 (by omega) (by omega), hpart 16 8 (by omega) (by omega)]

/-- A store into a structure, byte by byte. -/
theorem perform_cell (m : Mem) (ti : Word) (v : Word) (hn : n ≤ 8) (hj : j < 2 ^ 32) (hk : k < 2 ^ 32) :
    Bytes.perform m (Bytes.stores (cell ti j) n v) (cell ti k) =
      if j ≤ k ∧ k < j + n then (v >>> (8 * (k - j))).setWidth 8 else m (cell ti k) := by
  have hti := ti.isLt
  have hnat : (cell ti k - cell ti j).toNat = if j ≤ k then k - j else 2 ^ 64 - (j - k) := by
    unfold cell
    rw [BitVec.toNat_sub, BitVec.toNat_add, BitVec.toNat_add, BitVec.toNat_ofNat, BitVec.toNat_ofNat]
    split <;> omega
  rw [Bytes.perform_stores m (cell ti j) (show n ≤ 2 ^ 64 by omega), hnat]
  by_cases hjk : j ≤ k
  · rw [if_pos hjk]
    by_cases hlt : k < j + n
    · rw [if_pos (by omega), if_pos ⟨hjk, hlt⟩]
    · rw [if_neg (by omega), if_neg (by omega)]
  · rw [if_neg hjk, if_neg (by omega), if_neg (by omega)]

/-- A store into a structure leaves the addresses before and after it. -/
theorem perform_far (m : Mem) {b : Word} (v : Word) (hn : n ≤ 8) (hfit : a.toNat + n ≤ 2 ^ 64)
    (hfar : b.toNat < a.toNat ∨ a.toNat + n ≤ b.toNat) :
    Bytes.perform m (Bytes.stores a n v) b = m b := by
  have ha := a.isLt
  have hb := b.isLt
  rw [Bytes.perform_stores m a (show n ≤ 2 ^ 64 by omega), if_neg]
  rw [BitVec.toNat_sub]
  omega

theorem memset_cell (m : Mem) (hfit : ti.toNat + 24 ≤ 2 ^ 64) {b : Word} :
    Strings.memset m ti 0 infoSize b =
      if ti.toNat ≤ b.toNat ∧ b.toNat < ti.toNat + 24 then 0 else m b := by
  have hsize : infoSize.toNat = 24 := rfl
  have hloop := fold_invariant (I := fun i t => ∀ b : Word,
    t b = if ti.toNat ≤ b.toNat ∧ b.toNat < ti.toNat + i then 0 else m b) 24 m
    (fun b => by rw [if_neg (by omega)])
    (f := fun i t => Memory.store t (cell ti i) ((0#32).setWidth 8)) (fun i hi t ht b => ?_)
  · exact hloop b
  · have hn := toNat_cell (a := ti) (i := i) (by omega)
    have hstep := Memory.load_store t (cell ti i) ((0#32).setWidth 8) b
    refine hstep.trans ?_
    by_cases hb : b = cell ti i
    · rw [if_pos hb, if_pos (by rw [hb, hn]; omega)]
      rfl
    · have hne : b.toNat ≠ ti.toNat + i := fun heq => hb (BitVec.eq_of_toNat_eq (heq.trans hn.symm))
      rw [if_neg hb]
      refine (ht b).trans ?_
      by_cases hin : ti.toNat ≤ b.toNat ∧ b.toNat < ti.toNat + i
      · rw [if_pos hin, if_pos (by omega)]
      · rw [if_neg hin, if_neg (by omega)]

theorem readInfo_threadInfoInit (m : Mem) (ti : Word) (hfit : ti.toNat + 24 ≤ 2 ^ 64)
    (flags id : BitVec 32) : readInfo (threadInfoInit m ti flags id) ti = ⟨id, flags, 0, 0⟩ := by
  have hbytes : ∀ k < 24, threadInfoInit m ti flags id (cell ti k) =
      if k < 4 then (id.setWidth 64 >>> (8 * k)).setWidth 8
      else if k < 8 then (flags.setWidth 64 >>> (8 * (k - 4))).setWidth 8 else 0 := by
    intro k hk
    have hn := toNat_cell (a := ti) (i := k) (by omega)
    simp only [threadInfoInit, store32]
    rw [perform_cell _ _ _ (by omega) (by omega) (by omega), perform_cell _ _ _ (by omega) (by omega)
      (by omega), memset_cell m hfit, hn]
    by_cases h4 : k < 4
    · rw [if_neg (by omega), if_pos (by omega), if_pos h4, Nat.sub_zero]
    · rw [if_neg h4]
      by_cases h8 : k < 8
      · rw [if_pos (by omega), if_pos h8]
      · rw [if_neg (by omega), if_neg (by omega), if_pos (by omega), if_neg h8]
  have hzero : ∀ j, 8 ≤ j → j + 8 ≤ 24 → Bytes.load (threadInfoInit m ti flags id) (cell ti j) 8 = 0 := by
    intro j h8 hj
    refine load64_of_bytes fun k hk => ?_
    rw [cell_cell, hbytes _ (by omega), if_neg (by omega), if_neg (by omega)]
    simp
  unfold readInfo
  rw [hzero 8 (by omega) (by omega), hzero 16 (by omega) (by omega), load32_of_bytes (w := id),
    load32_of_bytes (w := flags)]
  · intro k hk
    rw [cell_cell, hbytes _ (by omega), if_neg (by omega), if_pos (by omega), Nat.add_sub_cancel_left]
  · intro k hk
    rw [cell_cell, Nat.zero_add, hbytes _ (by omega), if_pos hk]

theorem readInfo_setCurrent (m : Mem) (ti thread : Word) :
    readInfo (store64 m (cell ti 16) thread) ti =
      { readInfo m ti with currentThread := thread } := by
  have hkept : ∀ j n, j + n ≤ 16 → n ≤ 8 →
      Bytes.load (store64 m (cell ti 16) thread) (cell ti j) n = Bytes.load m (cell ti j) n := by
    intro j n hj hn
    refine load_congr hn fun k hk => ?_
    rw [cell_cell, store64, perform_cell _ _ _ (by omega) (by omega) (by omega), if_neg (by omega)]
  have hset : Bytes.load (store64 m (cell ti 16) thread) (cell ti 16) 8 = thread := by
    refine load64_of_bytes fun k hk => ?_
    rw [cell_cell, store64, perform_cell _ _ _ (by omega) (by omega) (by omega), if_pos (by omega),
      Nat.add_sub_cancel_left]
  unfold readInfo
  rw [hkept 0 4 (by omega) (by omega), hkept 4 4 (by omega) (by omega), hkept 8 8 (by omega) (by omega),
    hset]

/-- Two structures that do not overlap. -/
def Apart (a b : Word) : Prop := a.toNat + 24 ≤ b.toNat ∨ b.toNat + 24 ≤ a.toNat

section Apart

variable {b : Word} (ha : a.toNat + 24 ≤ 2 ^ 64) (hb : b.toNat + 24 ≤ 2 ^ 64) (h : Apart a b)
include ha hb h

theorem readInfo_threadInfoInit_apart (m : Mem) (flags id : BitVec 32) :
    readInfo (threadInfoInit m a flags id) b = readInfo m b := by
  refine readInfo_congr fun k hk => ?_
  have hk' := toNat_cell (a := b) (i := k) (by omega)
  have h0 := toNat_cell (a := a) (i := 0) (by omega)
  have h4 := toNat_cell (a := a) (i := 4) (by omega)
  unfold Apart at h
  simp only [threadInfoInit, store32]
  rw [perform_far _ _ (by omega) (by omega) (by omega), perform_far _ _ (by omega) (by omega) (by omega),
    memset_cell m ha, if_neg (by omega)]

theorem readInfo_setCurrent_apart (m : Mem) (thread : Word) :
    readInfo (store64 m (cell a 16) thread) b = readInfo m b := by
  refine readInfo_congr fun k hk => ?_
  have hk' := toNat_cell (a := b) (i := k) (by omega)
  have h16 := toNat_cell (a := a) (i := 16) (by omega)
  unfold Apart at h
  exact perform_far _ _ (by omega) (by omega) (by omega)

end Apart

end Bytes

/-! ### Where the structures are -/

section Layout

variable {st : Stacks} {smp c d : Nat} {sp : Word}

theorem toNat_stackSize : stackSize.toNat = 0x4000 := rfl

/-- A number of stacks below an address. -/
theorem toNat_below {a : Word} {i : Nat} (h : 0x4000 * i ≤ a.toNat) :
    (a - stackSize * BitVec.ofNat 64 i).toNat = a.toNat - 0x4000 * i := by
  have ha := a.isLt
  have hmul : (stackSize * BitVec.ofNat 64 i).toNat = 0x4000 * i := by
    rw [BitVec.toNat_mul, BitVec.toNat_ofNat, toNat_stackSize, Nat.mod_eq_of_lt (show i < 2 ^ 64 by omega),
      Nat.mod_eq_of_lt (by omega)]
  rw [BitVec.toNat_sub_of_le (by rw [BitVec.le_def, hmul]; exact h), hmul]

theorem toNat_info (h : st.Linked smp) (hc : c < smp) :
    (st.info c).toNat = if c = 0 then st.stackTop.toNat - 0x4000 else st.stackTop.toNat + 0x4000 * 4 - 0x4000 * c := by
  have hroom := h.room
  have hsecond := h.second
  have hprimary := h.primary
  unfold Stacks.info
  by_cases h0 : c = 0
  · rw [if_pos h0, if_pos h0, BitVec.toNat_sub_of_le hprimary, toNat_stackSize]
  · rw [if_neg h0, if_neg h0, toNat_below (by omega), hsecond]

/-- A stack starts where the structure of its core is, 16 KiB up. -/
theorem toNat_start (h : st.Linked smp) (hc : c < smp) :
    (st.start c).toNat = (st.info c).toNat + 0x4000 := by
  have hroom := h.room
  have hsecond := h.second
  have hprimary := h.primary
  rw [toNat_info h hc]
  unfold Stacks.start
  by_cases h0 : c = 0
  · rw [if_pos h0, if_pos h0]
    omega
  · rw [if_neg h0, if_neg h0, toNat_below (by omega)]
    omega

theorem toNat_threadInfoSp (sp : Word) : (threadInfoSp sp).toNat = sp.toNat / 0x4000 * 0x4000 := by
  have hmask : threadInfoSp sp = (sp >>> 14) <<< 14 := by
    apply BitVec.eq_of_getLsbD_eq
    intro i hi
    have hsize : threadSize - 1 = 0x3fff#64 := by decide
    rw [threadInfoSp, hsize]
    interval_cases i <;> simp
  have hlt := sp.isLt
  rw [hmask, BitVec.toNat_shiftLeft, BitVec.toNat_ushiftRight, Nat.shiftRight_eq_div_pow,
    Nat.shiftLeft_eq, Nat.mod_eq_of_lt (by omega)]

/-- Masking any stack pointer of a core gives the structure that was set up for the core. -/
theorem threadInfoSp_eq (h : st.Linked smp) (hc : c < smp) (hsp : st.InStack c sp) :
    threadInfoSp sp = st.info c := by
  obtain ⟨hlo, hhi⟩ := hsp
  have hal := h.aligned
  have hprimary := h.primary
  have hroom := h.room
  have hsecond := h.second
  have hinfo := toNat_info h hc
  rw [toNat_start h hc, toNat_stackSize] at hlo
  rw [toNat_start h hc] at hhi
  apply BitVec.eq_of_toNat_eq
  rw [toNat_threadInfoSp]
  by_cases h0 : c = 0
  · rw [if_pos h0] at hinfo
    omega
  · rw [if_neg h0] at hinfo
    omega

theorem info_fits (h : st.Linked smp) (hc : c < smp) : (st.info c).toNat + 24 ≤ 2 ^ 64 := by
  have hstart := toNat_start h hc
  have hlt := (st.start c).isLt
  omega

theorem info_apart (h : st.Linked smp) (hsmp : smp ≤ 5) (hc : c < smp) (hd : d < smp) (hne : c ≠ d) :
    Apart (st.info c) (st.info d) := by
  have hprimary := h.primary
  have hcn := toNat_info h hc
  have hdn := toNat_info h hd
  unfold Apart
  by_cases hc0 : c = 0
  · rw [if_pos hc0] at hcn
    rw [if_neg (by omega)] at hdn
    omega
  · rw [if_neg hc0] at hcn
    by_cases hd0 : d = 0
    · rw [if_pos hd0] at hdn
      omega
    · rw [if_neg hd0] at hdn
      omega

/-- The sixth core gets the stack of the first. -/
theorem info_five (h : st.Linked smp) (hsmp : 6 ≤ smp) : st.info 5 = st.info 0 := by
  have hprimary := h.primary
  apply BitVec.eq_of_toNat_eq
  rw [toNat_info h (by omega), toNat_info h (by omega), if_neg (by omega), if_pos rfl]
  omega

end Layout

/-! ### Runs of accesses -/

section Runs

variable {st : Stacks} {smp : Nat} {m : Mem} {infos : Nat → Info}

/-- Memory holds the record of every core. -/
def Matches (st : Stacks) (smp : Nat) (m : Mem) (infos : Nat → Info) : Prop :=
  ∀ c < smp, readInfo m (st.info c) = infos c

theorem Matches.step (h : Matches st smp m infos) (hl : st.Linked smp) (hsmp : smp ≤ 5) {op : Op}
    (hop : op.Valid st smp) : Matches st smp (exec st m op) (execInfos infos op) := by
  intro c hc
  cases op with
  | init i =>
    have hi : i < smp := hop
    simp only [exec, execInfos]
    by_cases heq : c = i
    · subst heq
      rw [Function.update_self, readInfo_threadInfoInit m _ (info_fits hl hc)]
    · rw [Function.update_of_ne heq, readInfo_threadInfoInit_apart (info_fits hl hi) (info_fits hl hc)
        (info_apart hl hsmp hi hc (Ne.symm heq))]
      exact h c hc
  | setCurrent d sp thread =>
    obtain ⟨hd, hsp⟩ := hop
    simp only [exec, execInfos]
    rw [threadInfoSp_eq hl hd hsp]
    by_cases heq : c = d
    · subst heq
      rw [Function.update_self, readInfo_setCurrent, h c hc]
    · rw [Function.update_of_ne heq, readInfo_setCurrent_apart (info_fits hl hd) (info_fits hl hc)
        (info_apart hl hsmp hd hc (Ne.symm heq))]
      exact h c hc

theorem Matches.run (h : Matches st smp m infos) (hl : st.Linked smp) (hsmp : smp ≤ 5) (ops : List Op)
    (hops : ∀ op ∈ ops, op.Valid st smp) :
    Matches st smp (ops.foldl (exec st) m) (ops.foldl execInfos infos) := by
  induction ops generalizing m infos with
  | nil => exact h
  | cons op ops ih =>
    exact ih (h.step hl hsmp (hops op List.mem_cons_self))
      (fun o ho => hops o (List.mem_cons_of_mem op ho))

end Runs

/-- The structures that the cores find by masking their stack pointers behave as one record
for each core, over every run of initialisations and stores in any order, exactly when
`SMP_NUM` is at most 5: `boot.S` has no stack of its own for a sixth core. -/
theorem thread_info_per_core (st : Stacks) (smp : Nat) (h : st.Linked smp) :
    (∀ (m : Mem) (ops : List Op), (∀ op ∈ ops, op.Valid st smp) →
      ∀ c < smp, ∀ sp, st.InStack c sp →
        readInfo (ops.foldl (exec st) m) (threadInfoSp sp) =
          ops.foldl execInfos (fun c => readInfo m (st.info c)) c) ↔ smp ≤ 5 := by
  constructor
  · intro hall
    by_contra hsmp
    have h0 : 0 < smp := by omega
    have h5 : 5 < smp := by omega
    have hsp : st.InStack 0 (st.info 0) := by
      have hstart := toNat_start h h0
      have hprimary := h.primary
      unfold Stacks.InStack
      rw [toNat_stackSize]
      omega
    have hvalid : ∀ op ∈ [Op.init 0, Op.init 5], op.Valid st smp := by
      intro op hop
      simp only [List.mem_cons, List.not_mem_nil, or_false] at hop
      rcases hop with rfl | rfl
      · exact h0
      · exact h5
    have hboth := hall (fun _ => 0) [.init 0, .init 5] hvalid 0 h0 (st.info 0) hsp
    rw [threadInfoSp_eq h h0 hsp] at hboth
    simp only [List.foldl_cons, List.foldl_nil, exec, execInfos] at hboth
    rw [info_five h (by omega), readInfo_threadInfoInit _ _ (info_fits h h0),
      Function.update_of_ne (by decide), Function.update_self] at hboth
    exact absurd (congrArg Info.cpu hboth) (by decide)
  · intro hsmp m ops hops c hc sp hsp
    have hstart : Matches st smp m (fun c => readInfo m (st.info c)) := fun c _ => rfl
    rw [threadInfoSp_eq h hc hsp]
    exact hstart.run h hsmp ops hops c hc

/-- Four cores with stacks at an address of the kernel. -/
theorem thread_info_per_core_four :
    let st : Stacks := ⟨0xffff000040098000, 0xffff0000400a8000⟩
    readInfo ([.init 0, .init 3, .setCurrent 3 0xffff00004009fff0 0x1234].foldl (exec st) fun _ => 0)
      (threadInfoSp 0xffff00004009c100) = ⟨3, 0, 0, 0x1234⟩ := by
  intro st
  have hlinked : st.Linked 4 := ⟨by decide, by decide, by decide, by decide⟩
  have hrun := (thread_info_per_core st 4 hlinked).mpr (by decide) (fun _ => 0)
    [.init 0, .init 3, .setCurrent 3 0xffff00004009fff0 0x1234]
    (by
      intro op hop
      simp only [List.mem_cons, List.not_mem_nil, or_false] at hop
      rcases hop with rfl | rfl | rfl
      · exact (by decide : 0 < 4)
      · exact (by decide : 3 < 4)
      · exact ⟨by decide, by decide, by decide⟩)
    3 (by decide) 0xffff00004009c100 ⟨by decide, by decide⟩
  exact hrun.trans (by decide)

end Dmos.Proofs.PerCore
