import Mathlib.Data.Nat.Find
import Dmos.Proofs.BitmapSet

namespace Dmos.Proofs.FreeBlock

open Dmos.Lib Dmos.Bitmap BitmapSet

variable {b : Bitmap} {m : Bytes} {count i : Word}

/-- The test of one position succeeds: no bit of the window from `i` on is set. The
window may wrap around. -/
def Passes (b : Bitmap) (m : Bytes) (count i : Word) : Prop :=
  ∀ j : Word, j < count → member b m (i + j) = false

theorem free_run_from (i count j : Word) (hj : j ≤ count) :
    b.freeRunFrom m i count j = count ↔
      ∀ k, j ≤ k → k < count → member b m (i + k) = false := by
  induction j using freeRunFrom.induct b m i count with
  | case1 j hlt hset =>
    rw [freeRunFrom, if_pos hlt, if_pos hset]
    refine iff_of_false (fun h => ?_) (fun h => ?_)
    · have hnat := congrArg BitVec.toNat h
      have hlt' : j.toNat < count.toNat := hlt
      omega
    · exact hset (test_eq_zero_iff.mpr (h j (Nat.le_refl _) hlt))
  | case2 j hlt hclear ih =>
    have hs := toNat_succ_of_lt hlt
    have hlt' : j.toNat < count.toNat := hlt
    have hzero : b.bitmapTest m (i + j) = 0 := not_not.mp hclear
    rw [freeRunFrom, if_pos hlt, if_neg hclear, ih (by rw [BitVec.le_def, hs]; omega)]
    constructor
    · intro h k hk hkc
      have hk' : j.toNat ≤ k.toNat := hk
      rcases Nat.eq_or_lt_of_le hk' with heq | hgt
      · rw [← BitVec.eq_of_toNat_eq heq]
        exact test_eq_zero_iff.mp hzero
      · exact h k (by rw [BitVec.le_def, hs]; exact hgt) hkc
    · intro h k hk hkc
      rw [BitVec.le_def, hs] at hk
      exact h k (Nat.le_of_succ_le hk) hkc
  | case3 j hge =>
    have heq : j = count := by
      apply BitVec.eq_of_toNat_eq
      have hle : j.toNat ≤ count.toNat := hj
      have hnot : ¬ j.toNat < count.toNat := hge
      omega
    rw [freeRunFrom, if_neg hge]
    exact iff_of_true heq (fun k hk hkc => absurd (Nat.lt_of_le_of_lt hk hkc) hge)

theorem free_run_iff (i count : Word) : b.freeRunFrom m i count 0 = count ↔ Passes b m count i := by
  rw [free_run_from i count 0 (Nat.zero_le _)]
  exact ⟨fun h j hj => h j (Nat.zero_le _) hj, fun h k _ hk => h k hk⟩

/-- What the loop returns: the first position that passes, or, after the last one,
`-1`. With the largest bound there is no last one. -/
theorem find_cases (fuel : Nat) (i : Word) {r : Word}
    (h : b.findContiguousFreeFrom m count fuel i = some r) :
    (r ≤ b.size - count ∧ Passes b m count r ∧ ∀ i', i ≤ i' → i' < r → ¬ Passes b m count i') ∨
    (r = -1 ∧ b.size - count ≠ -1 ∧ ∀ i', i ≤ i' → i' ≤ b.size - count → ¬ Passes b m count i') := by
  induction fuel generalizing i with
  | zero => cases h
  | succ fuel ih =>
    rw [findContiguousFreeFrom] at h
    by_cases hi : i ≤ b.size - count
    · rw [if_pos hi] at h
      by_cases hp : Passes b m count i
      · rw [if_pos ((free_run_iff i count).mpr hp)] at h
        obtain rfl := Option.some.inj h
        exact .inl ⟨hi, hp, fun i' h1 h2 => absurd (Nat.lt_of_le_of_lt h1 h2) (Nat.lt_irrefl _)⟩
      · rw [if_neg (mt (free_run_iff i count).mp hp)] at h
        -- after the largest index the loop starts again at 0, and nothing is between
        have hnext : ∀ i', i ≤ i' → i' = i ∨ i + 1 ≤ i' := by
          intro i' hle
          have hle' : i.toNat ≤ i'.toNat := hle
          rcases Nat.eq_or_lt_of_le hle' with heq | hlt
          · exact .inl (BitVec.eq_of_toNat_eq heq.symm)
          · right
            rw [BitVec.le_def, toNat_succ_of_lt (show i < i' from hlt)]
            exact hlt
        obtain ⟨hr, hpass, hfirst⟩ | ⟨hr, hb, hnone⟩ := ih (i + 1) h
        · refine .inl ⟨hr, hpass, fun i' h1 h2 => ?_⟩
          obtain rfl | h1 := hnext i' h1
          · exact hp
          · exact hfirst i' h1 h2
        · refine .inr ⟨hr, hb, fun i' h1 h2 => ?_⟩
          obtain rfl | h1 := hnext i' h1
          · exact hp
          · exact hnone i' h1 h2
    · rw [if_neg hi] at h
      refine .inr ⟨(Option.some.inj h).symm, fun hb => hi ?_, fun i' h1 h2 => ?_⟩
      · rw [hb, BitVec.le_def]
        exact Nat.le_of_lt_succ i.isLt
      · exact absurd (Nat.le_trans h1 h2) hi

theorem toNat_neg_one : (-1 : Word).toNat = 2 ^ 64 - 1 := by decide

/-- `-1` is the largest index. -/
theorem lt_neg_one {k : Word} (h : k ≠ -1) : k < -1 := by
  have hne : k.toNat ≠ (-1 : Word).toNat := fun he => h (BitVec.eq_of_toNat_eq he)
  have hk := k.isLt
  rw [toNat_neg_one] at hne
  rw [BitVec.lt_def, toNat_neg_one]
  omega

/-- Below the largest bound the loop ends. -/
theorem find_returns (hb : b.size - count ≠ -1) (n : Nat) (i : Word)
    (hn : (b.size - count).toNat + 1 - i.toNat ≤ n) :
    ∃ r, b.findContiguousFreeFrom m count (n + 1) i = some r := by
  induction n generalizing i with
  | zero =>
    have hi : ¬ i ≤ b.size - count := by
      rw [BitVec.le_def]
      omega
    exact ⟨-1, by rw [findContiguousFreeFrom, if_neg hi]⟩
  | succ n ih =>
    rw [findContiguousFreeFrom]
    by_cases hi : i ≤ b.size - count
    · rw [if_pos hi]
      split
      · exact ⟨i, rfl⟩
      · have hi' : i.toNat ≤ (b.size - count).toNat := hi
        have hlt : i < -1 := Nat.lt_of_le_of_lt hi (lt_neg_one hb)
        exact ih (i + 1) (by rw [toNat_succ_of_lt hlt]; omega)
    · exact ⟨-1, by rw [if_neg hi]⟩

/-- A free block of `count` bits within the bitmap. -/
def FreeAt (b : Bitmap) (m : Bytes) (count : Word) (i : Nat) : Prop :=
  i + count.toNat ≤ b.size.toNat ∧
    ∀ k, i ≤ k → k < i + count.toNat → member b m (BitVec.ofNat 64 k) = false

/-- The first free block, or `-1` when there is none. -/
def Correct (b : Bitmap) (m : Bytes) (count r : Word) : Prop :=
  (∃ i, FreeAt b m count i ∧ (∀ i' < i, ¬ FreeAt b m count i') ∧ r = BitVec.ofNat 64 i) ∨
    ((∀ i, ¬ FreeAt b m count i) ∧ r = -1)

theorem toNat_index {n : Nat} (h : n < 2 ^ 64) : (BitVec.ofNat 64 n).toNat = n := by
  rw [BitVec.toNat_ofNat, Nat.mod_eq_of_lt h]

theorem toNat_bound (hle : count ≤ b.size) : (b.size - count).toNat = b.size.toNat - count.toNat :=
  BitVec.toNat_sub_of_le hle

/-- Without the wrap of the bound, the windows tried are the blocks of the bitmap. -/
theorem passes_iff (hle : count ≤ b.size) (hi : i ≤ b.size - count) :
    Passes b m count i ↔ FreeAt b m count i.toNat := by
  have hc : count.toNat ≤ b.size.toNat := hle
  rw [BitVec.le_def, toNat_bound hle] at hi
  have hsize := b.size.isLt
  constructor
  · intro h
    refine ⟨by omega, fun k hk hkc => ?_⟩
    have hj : (BitVec.ofNat 64 (k - i.toNat)).toNat = k - i.toNat :=
      toNat_index (by omega)
    have hsum : i + BitVec.ofNat 64 (k - i.toNat) = BitVec.ofNat 64 k := by
      apply BitVec.eq_of_toNat_eq
      rw [BitVec.toNat_add, hj, BitVec.toNat_ofNat]
      congr 1
      omega
    rw [← hsum]
    exact h _ (by rw [BitVec.lt_def, hj]; omega)
  · rintro ⟨-, h⟩ j hj
    have hj' : j.toNat < count.toNat := hj
    have hsum : i + j = BitVec.ofNat 64 (i.toNat + j.toNat) := by
      rw [BitVec.ofNat_add, BitVec.ofNat_toNat, BitVec.ofNat_toNat, BitVec.setWidth_eq, BitVec.setWidth_eq]
    rw [hsum]
    exact h _ (by omega) (by omega)

theorem freeAt_index (hle : count ≤ b.size) {n : Nat} (h : FreeAt b m count n) :
    (BitVec.ofNat 64 n).toNat = n ∧ BitVec.ofNat 64 n ≤ b.size - count := by
  have hn := h.1
  have hsize := b.size.isLt
  have hnat : (BitVec.ofNat 64 n).toNat = n := toNat_index (by omega)
  refine ⟨hnat, ?_⟩
  rw [BitVec.le_def, toNat_bound hle, hnat]
  omega

/-- A request that is no larger than the bitmap is answered. -/
theorem find_correct (hle : count ≤ b.size) :
    ∃ fuel r, bitmapFindContiguousFree fuel b m count = some r ∧ Correct b m count r := by
  have hcorrect : ∀ fuel r, bitmapFindContiguousFree fuel b m count = some r →
      Correct b m count r := by
    intro fuel r h
    obtain ⟨hr, hpass, hfirst⟩ | ⟨hr, -, hnone⟩ := find_cases fuel 0 h
    · refine .inl ⟨r.toNat, (passes_iff hle hr).mp hpass, fun i' hi' hfree => ?_, ?_⟩
      · obtain ⟨hnat, hb⟩ := freeAt_index hle hfree
        refine hfirst (BitVec.ofNat 64 i') (Nat.zero_le _) (by rw [BitVec.lt_def, hnat]; exact hi') ?_
        rw [passes_iff hle hb, hnat]
        exact hfree
      · rw [BitVec.ofNat_toNat, BitVec.setWidth_eq]
    · refine .inr ⟨fun i' hfree => ?_, hr⟩
      obtain ⟨hnat, hb⟩ := freeAt_index hle hfree
      refine hnone (BitVec.ofNat 64 i') (Nat.zero_le _) hb ?_
      rw [passes_iff hle hb, hnat]
      exact hfree
  by_cases hb : b.size - count = -1
  · -- only an empty request has the largest bound, and it is met at once
    have hc : count.toNat ≤ b.size.toNat := hle
    have hzero : count = 0 := by
      have hnat := congrArg BitVec.toNat hb
      rw [toNat_bound hle, toNat_neg_one] at hnat
      have hsize := b.size.isLt
      have hcount : count.toNat = 0 := by omega
      exact BitVec.eq_of_toNat_eq hcount
    have hpass : Passes b m count 0 := by
      intro j hj
      rw [hzero] at hj
      exact absurd hj (Nat.not_lt_zero _)
    have hfind : bitmapFindContiguousFree 1 b m count = some 0 := by
      have hfirst : (0 : Word) ≤ b.size - count := Nat.zero_le _
      rw [bitmapFindContiguousFree, findContiguousFreeFrom, if_pos hfirst,
        if_pos ((free_run_iff 0 count).mpr hpass)]
    exact ⟨1, 0, hfind, hcorrect 1 0 hfind⟩
  · obtain ⟨r, hr⟩ := find_returns (m := m) hb _ 0 (Nat.le_refl _)
    exact ⟨_, r, hr, hcorrect _ r hr⟩

/-- Two set bits so far apart that no window of `count` bits, wrapped around or not,
leaves out both. -/
def Spans (b : Bitmap) (m : Bytes) (count : Word) : Prop :=
  ∃ p q : Word, member b m p = true ∧ member b m q = true ∧ 2 ^ 64 ≤ count.toNat + (q.toNat - p.toNat)

theorem member_lt {p : Word} (h : member b m p = true) : p.toNat < b.size.toNat := by
  rw [member, Bool.and_eq_true, decide_eq_true_eq] at h
  exact h.1

theorem not_passes (hgt : b.size < count) (hs : Spans b m count) (i : Word) :
    ¬ Passes b m count i := by
  intro h
  obtain ⟨p, q, hp, hq, hspan⟩ := hs
  have hc : b.size.toNat < count.toNat := hgt
  have hpl := member_lt hp
  have hql := member_lt hq
  have hhit : ∀ x : Word, member b m x = true → ¬ x - i < count := by
    intro x hx hlt
    have hclear := h (x - i) hlt
    rw [BitVec.add_comm, BitVec.sub_add_cancel, hx] at hclear
    cases hclear
  by_cases hqi : i ≤ q
  · have hqi' : i.toNat ≤ q.toNat := hqi
    refine hhit q hq ?_
    rw [BitVec.lt_def, BitVec.toNat_sub_of_le hqi]
    omega
  · -- the window starts after `q`, and comes round to `p`
    have hqi' : ¬ i.toNat ≤ q.toNat := hqi
    refine hhit p hp ?_
    have hi := i.isLt
    rw [BitVec.lt_def, BitVec.toNat_sub]
    omega

theorem exists_passes (hgt : b.size < count) (hs : ¬ Spans b m count) :
    ∃ k, k ≤ b.size - count ∧ k ≠ -1 ∧ Passes b m count k := by
  have hc : b.size.toNat < count.toNat := hgt
  have hbound : (b.size - count).toNat = 2 ^ 64 + b.size.toNat - count.toNat := by
    have := count.isLt
    rw [BitVec.toNat_sub]
    omega
  classical
  by_cases hany : ∃ n, ∃ p : Word, p.toNat = n ∧ member b m p = true
  · -- the window that ends just before the first set bit, having wrapped around
    obtain ⟨p, hpn, hp⟩ := Nat.find_spec hany
    have hmin : ∀ q : Word, member b m q = true → p.toNat ≤ q.toNat := by
      intro q hq
      rw [hpn]
      exact Nat.find_min' hany ⟨q, rfl, hq⟩
    have hpl := member_lt hp
    have hcl := count.isLt
    have hk : (BitVec.ofNat 64 (p.toNat + (2 ^ 64 - count.toNat))).toNat =
        p.toNat + (2 ^ 64 - count.toNat) := toNat_index (by omega)
    refine ⟨BitVec.ofNat 64 (p.toNat + (2 ^ 64 - count.toNat)), ?_, ?_, ?_⟩
    · rw [BitVec.le_def, hk, hbound]
      omega
    · intro h
      have hnat := congrArg BitVec.toNat h
      rw [hk, toNat_neg_one] at hnat
      omega
    · intro j hj
      have hj' : j.toNat < count.toNat := hj
      by_contra hset
      have hq : member b m (BitVec.ofNat 64 (p.toNat + (2 ^ 64 - count.toNat)) + j) = true := by
        simpa using hset
      have hle := hmin _ hq
      have hnspan := not_le.mp (fun h => hs ⟨p, _, hp, hq, h⟩)
      rw [BitVec.toNat_add, hk] at hle hnspan
      omega
  · refine ⟨0, Nat.zero_le _, by decide, fun j _ => ?_⟩
    by_contra hset
    exact hany ⟨_, 0 + j, rfl, by simpa using hset⟩

theorem not_freeAt (hgt : b.size < count) (n : Nat) : ¬ FreeAt b m count n := by
  have hc : b.size.toNat < count.toNat := hgt
  intro h
  have := h.1
  omega

theorem bound_eq_max (hgt : b.size < count) :
    b.size - count = -1 ↔ count.toNat = b.size.toNat + 1 := by
  have hc : b.size.toNat < count.toNat := hgt
  have hcl := count.isLt
  rw [← BitVec.toNat_inj, BitVec.toNat_sub, toNat_neg_one]
  omega

/-- The search returns the first free block, or `-1` when there is none, exactly when
the request is no larger than the bitmap, or so large that it meets a set bit even
around the end of the address range, and the loop over the positions has an end. -/
theorem contiguous_free_iff (b : Bitmap) (m : Bytes) (count : Word) :
    (∃ fuel r, bitmapFindContiguousFree fuel b m count = some r ∧ Correct b m count r) ↔
      count ≤ b.size ∨ (count.toNat ≠ b.size.toNat + 1 ∧ Spans b m count) := by
  by_cases hle : count ≤ b.size
  · exact iff_of_true (find_correct hle) (.inl hle)
  · have hgt : b.size < count := Nat.lt_of_not_le hle
    rw [or_iff_right hle]
    constructor
    · rintro ⟨fuel, r, hfind, hr⟩
      obtain ⟨n, hfree, -⟩ | ⟨-, rfl⟩ := hr
      · exact absurd hfree (not_freeAt hgt n)
      · have hcases := find_cases fuel 0 hfind
        by_cases hs : Spans b m count
        · obtain ⟨-, hpass, -⟩ | ⟨-, hb, -⟩ := hcases
          · exact absurd hpass (not_passes hgt hs _)
          · exact ⟨mt (bound_eq_max hgt).mpr hb, hs⟩
        · obtain ⟨k, hk, hne, hpass⟩ := exists_passes hgt hs
          obtain ⟨-, -, hfirst⟩ | ⟨-, -, hnone⟩ := hcases
          · exact absurd hpass (hfirst k (Nat.zero_le _) (lt_neg_one hne))
          · exact absurd hpass (hnone k (Nat.zero_le _) hk)
    · rintro ⟨hne, hs⟩
      obtain ⟨r, hr⟩ := find_returns (m := m) (mt (bound_eq_max hgt).mp hne) _ 0 (Nat.le_refl _)
      refine ⟨_, r, hr, .inr ⟨not_freeAt hgt, ?_⟩⟩
      obtain ⟨-, hpass, -⟩ | ⟨hmax, -, -⟩ := find_cases _ 0 hr
      · exact absurd hpass (not_passes hgt hs _)
      · exact hmax

/-- Ten bits are asked of an empty bitmap of eight: block 0 is reported. -/
theorem block_past_the_end :
    ¬ ∃ fuel r, bitmapFindContiguousFree fuel ⟨0x1000, 8⟩ (fun _ => 0) 10 = some r ∧
      Correct ⟨0x1000, 8⟩ (fun _ => 0) 10 r := by
  have hpass : Passes ⟨0x1000, 8⟩ (fun _ => 0) 10 0 := fun j _ => by simp [member]
  rintro ⟨fuel, r, hfind, hr⟩
  obtain ⟨n, hfree, -⟩ | ⟨-, rfl⟩ := hr
  · exact not_freeAt (by decide) n hfree
  · obtain ⟨-, -, hfirst⟩ | ⟨-, -, hnone⟩ := find_cases fuel 0 hfind
    · exact hfirst 0 (by decide) (by decide) hpass
    · exact hnone 0 (by decide) (by decide) hpass

end Dmos.Proofs.FreeBlock
