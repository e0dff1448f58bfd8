import SlickPerfmon.Library.LogLinear
import SlickPerfmon.Library.NearestRank
import SlickPerfmon.Stats.Merge

/-!
# Reading percentiles

`Histogram::percentile` and what it is made of. Of the double it is given it reads two comparisons and, between
them, the fixed-point `scaled`; what it reports is the exact integer.
-/

namespace SlickPerfmon

open Library

/-- What `percentile` reads of its argument. -/
inductive Percent where
  /-- `!(p > 0.0)`, which a NaN is too. -/
  | notPositive
  /-- `p >= 100.0`. -/
  | hundred
  /-- `static_cast<uint64_t>(p * (kRankScale / 100) + 0.5)`. -/
  | scaled (s : UInt64)

namespace Histogram

variable {kPrecision : UInt32}

def bucketLower (kPrecision index : UInt32) : UInt64 :=
  if index < kSubBuckets kPrecision then index.toUInt64
  else
    let block := index >>> kPrecision
    let sub := index &&& (kSubBuckets kPrecision - 1)
    let shift := block - 1
    (kSubBuckets kPrecision + sub).toUInt64 <<< shift.toUInt64

def bucketWidth (kPrecision index : UInt32) : UInt64 :=
  if index < kSubBuckets kPrecision then 1 else 1 <<< ((index >>> kPrecision) - 1).toUInt64

def bucketMidpoint (kPrecision index : UInt32) : UInt64 :=
  bucketLower kPrecision index + bucketWidth kPrecision index / 2

def kRankScale : UInt64 := 1000000000

def nearestRank (scaled n : UInt64) : UInt64 :=
  let q := n / kRankScale
  let r := n % kRankScale
  let rank := q * scaled + (r * scaled + kRankScale - 1) / kRankScale
  if rank = 0 then 1 else rank

/-- The indices of `for (uint32_t i = lo; i <= hi; ++i)`. -/
def indices (lo hi : UInt32) : List UInt32 :=
  (List.range' lo.toNat (hi.toNat + 1 - lo.toNat)).map UInt32.ofNat

/-- The loop of `percentile`, over the buckets still to come. -/
def walk (counts : UInt32 → Nat) (want : UInt64) (seen : UInt64) : List UInt32 → Option UInt32
  | [] => none
  | i :: rest =>
      let seen := seen + UInt64.ofNat (counts i)
      if seen ≥ want then some i else walk counts want seen rest

def firstUsed (h : Histogram kPrecision) : UInt32 := if h.total = 0 then 0 else h.usedLo

def lastUsed (h : Histogram kPrecision) : UInt32 := if h.total = 0 then 0 else h.usedHi

def percentile (h : Histogram kPrecision) (p : Percent) : UInt64 :=
  if h.total = 0 then 0
  else
    match p with
    | .notPositive => bucketMidpoint kPrecision h.firstUsed
    | .hundred => bucketMidpoint kPrecision h.lastUsed
    | .scaled s =>
        let want := nearestRank s (UInt64.ofNat h.total)
        bucketMidpoint kPrecision ((walk h.counts want 0 (indices h.usedLo h.usedHi)).getD h.lastUsed)

end Histogram

/-- `Accumulator::percentile`, clamped to the range observed. -/
def Accumulator.percentile {kPrecision : UInt32} (a : Accumulator kPrecision) (p : Percent) : UInt64 :=
  if a.count = 0 then 0
  else
    let v := a.hist.percentile p
    if v < a.min then a.min else if v > a.max then a.max else v

/-! ## The loops over a band -/

namespace Histogram

theorem mem_indices {lo hi i : UInt32} : i ∈ indices lo hi ↔ lo ≤ i ∧ i ≤ hi := by
  have hhi := UInt32.toNat_lt hi
  simp only [indices, List.mem_map, List.mem_range'_1, UInt32.le_iff_toNat_le]
  constructor
  · rintro ⟨n, hn, rfl⟩
    rw [UInt32.toNat_ofNat_of_lt' (show n < UInt32.size by change n < 2 ^ 32; omega)]
    omega
  · intro hi
    exact ⟨i.toNat, by omega, UInt32.ofNat_toNat⟩

theorem indices_sorted (lo hi : UInt32) : (indices lo hi).Pairwise (· < ·) := by
  have hhi := UInt32.toNat_lt hi
  rw [indices, List.pairwise_map]
  refine (List.pairwise_lt_range' ..).imp_of_mem fun {a b} ha hb hab => ?_
  rw [List.mem_range'_1] at ha hb
  rw [UInt32.lt_iff_toNat_lt, UInt32.toNat_ofNat_of_lt' (show a < UInt32.size by change a < 2 ^ 32; omega),
    UInt32.toNat_ofNat_of_lt' (show b < UInt32.size by change b < 2 ^ 32; omega)]
  exact hab

theorem indices_nodup (lo hi : UInt32) : (indices lo hi).Nodup :=
  (indices_sorted lo hi).imp fun {a b} h => by
    rintro rfl
    exact UInt32.lt_irrefl _ h

/-- Buckets that count nothing make no difference to the walk. -/
theorem walk_filter (counts : UInt32 → Nat) {want : UInt64} (l : List UInt32) : ∀ {seen : UInt64}, seen < want →
    walk counts want seen (l.filter fun i => counts i ≠ 0) = walk counts want seen l := by
  induction l with
  | nil =>
      intro seen _
      rfl
  | cons i l ih =>
      intro seen hseen
      by_cases hi : counts i = 0
      · have hnext : seen + UInt64.ofNat (counts i) = seen := by rw [hi]; exact UInt64.add_zero _
        rw [List.filter_cons_of_neg (by simpa using hi), walk, hnext, if_neg (UInt64.not_le.mpr hseen)]
        exact ih hseen
      · rw [List.filter_cons_of_pos (by simpa using hi), walk, walk]
        by_cases hreach : seen + UInt64.ofNat (counts i) ≥ want
        · rw [if_pos hreach, if_pos hreach]
        · rw [if_neg hreach, if_neg hreach]
          exact ih (UInt64.not_le.mp hreach)

theorem nearestRank_pos (scaled n : UInt64) : 0 < nearestRank scaled n := by
  simp only [nearestRank]
  split
  · exact UInt64.zero_lt_one
  · rename_i hrank
    exact UInt64.pos_iff_ne_zero.mpr hrank

end Histogram

/-! ## The buckets at the source's widths -/

namespace Histogram

section widths

variable {kPrecision : UInt32} (hP : kPrecision ≤ 26)

include hP

theorem precision_toNat : kPrecision.toNat ≤ 26 := UInt32.le_iff_toNat_le.mp hP

theorem two_pow_precision : 2 ^ kPrecision.toNat ≤ 2 ^ 26 := Nat.pow_le_pow_right (by omega) (precision_toNat hP)

theorem kSubBuckets_toNat : (kSubBuckets kPrecision).toNat = 2 ^ kPrecision.toNat := by
  have hp := precision_toNat hP
  have hpow := two_pow_precision hP
  rw [kSubBuckets, UInt32.toNat_shiftLeft, UInt32.toNat_one, Nat.mod_eq_of_lt (show kPrecision.toNat < 32 by omega),
    Nat.one_shiftLeft, Nat.mod_eq_of_lt (by omega)]

theorem kBucketCount_toNat : (kBucketCount kPrecision).toNat = (64 - kPrecision.toNat + 1) * 2 ^ kPrecision.toNat := by
  have hp := precision_toNat hP
  have hfits : ∀ p ≤ 26, (64 - p + 1) * 2 ^ p < 2 ^ 32 := by decide
  have hle : kPrecision ≤ 64 := UInt32.le_iff_toNat_le.mpr (by simpa using Nat.le_trans hp (by decide))
  have hblocks : (64 - kPrecision + 1).toNat = 64 - kPrecision.toNat + 1 := by
    rw [UInt32.toNat_add, UInt32.toNat_sub_of_le _ _ hle]
    simp
    omega
  rw [kBucketCount, UInt32.toNat_mul, hblocks, kSubBuckets_toNat hP, Nat.mod_eq_of_lt (hfits _ hp)]

theorem lt_kSubBuckets (v : UInt64) : v < (kSubBuckets kPrecision).toUInt64 ↔ v.toNat < 2 ^ kPrecision.toNat := by
  rw [UInt64.lt_iff_toNat_lt, UInt32.toNat_toUInt64, kSubBuckets_toNat hP]

theorem lt_kSubBuckets_index (i : UInt32) : i < kSubBuckets kPrecision ↔ i.toNat < 2 ^ kPrecision.toNat := by
  rw [UInt32.lt_iff_toNat_lt, kSubBuckets_toNat hP]

omit hP in
theorem log2_lt (v : UInt64) : v.toNat.log2 < 64 := by
  rcases Nat.eq_zero_or_pos v.toNat with h0 | hpos
  · simp [h0]
  · exact (Nat.log2_lt (by omega)).mpr v.toNat_lt

omit hP in
theorem floorLog2_toNat (v : UInt64) : (floorLog2 v).toNat = v.toNat.log2 := by
  rw [floorLog2, UInt32.toNat_ofNat_of_lt']
  exact Nat.lt_trans (log2_lt v) (by decide)

/-! ### Above the linear region -/

section upper

variable {v : UInt64} (hv : 2 ^ kPrecision.toNat ≤ v.toNat)

omit hP in
include hv in
theorem shift_toNat : (floorLog2 v - kPrecision).toNat = LogLinear.shift kPrecision.toNat v.toNat := by
  have hle : kPrecision ≤ floorLog2 v := by
    have hpos := Nat.two_pow_pos kPrecision.toNat
    rw [UInt32.le_iff_toNat_le, floorLog2_toNat]
    exact (Nat.le_log2 (by omega)).mpr hv
  rw [UInt32.toNat_sub_of_le _ _ hle, floorLog2_toNat, LogLinear.shift]

omit hP in
theorem shift_lt (kPrecision : UInt32) (v : UInt64) : LogLinear.shift kPrecision.toNat v.toNat < 64 := by
  have hlog := log2_lt v
  rw [LogLinear.shift]
  omega

include hv in
theorem quotient_toNat : ((v >>> (floorLog2 v - kPrecision).toUInt64).toUInt32).toNat =
    v.toNat / 2 ^ LogLinear.shift kPrecision.toNat v.toNat := by
  have hpow := two_pow_precision hP
  have hquot : v.toNat / 2 ^ LogLinear.shift kPrecision.toNat v.toNat < _ := LogLinear.quotient_lt v.toNat
  rw [Nat.pow_succ] at hquot
  rw [UInt64.toNat_toUInt32, UInt64.toNat_shiftRight, UInt32.toNat_toUInt64, shift_toNat hv,
    Nat.mod_eq_of_lt (shift_lt kPrecision v), Nat.shiftRight_eq_div_pow]
  exact Nat.mod_eq_of_lt (by omega)

include hv in
/-- The block of a value begins where the exact multiple of its sub-buckets does. -/
theorem block_toNat : ((floorLog2 v - kPrecision + 1) <<< kPrecision).toNat =
    (LogLinear.shift kPrecision.toNat v.toNat + 1) * 2 ^ kPrecision.toNat := by
  have hp := precision_toNat hP
  have hshift := shift_lt kPrecision v
  have hfits : (LogLinear.shift kPrecision.toNat v.toNat + 1) * 2 ^ kPrecision.toNat < 2 ^ 32 := by
    have hlog := LogLinear.log2_of_le hv
    have hlt := log2_lt v
    calc (LogLinear.shift kPrecision.toNat v.toNat + 1) * 2 ^ kPrecision.toNat
        ≤ (64 - kPrecision.toNat + 1) * 2 ^ kPrecision.toNat := Nat.mul_le_mul_right _ (by omega)
      _ = (kBucketCount kPrecision).toNat := (kBucketCount_toNat hP).symm
      _ < 2 ^ 32 := UInt32.toNat_lt _
  rw [UInt32.toNat_shiftLeft, UInt32.toNat_add, shift_toNat hv, UInt32.toNat_one,
    Nat.mod_eq_of_lt (show kPrecision.toNat < 32 by omega),
    Nat.mod_eq_of_lt (show LogLinear.shift kPrecision.toNat v.toNat + 1 < 2 ^ 32 by omega), Nat.shiftLeft_eq,
    Nat.mod_eq_of_lt hfits]

end upper

/-- `index_of` is the bucket of a log-linear histogram. -/
theorem indexOf_toNat (v : UInt64) : (indexOf kPrecision v).toNat = LogLinear.index kPrecision.toNat v.toNat := by
  have hpow := two_pow_precision hP
  rw [indexOf]
  by_cases hv : v.toNat < 2 ^ kPrecision.toNat
  · rw [if_pos ((lt_kSubBuckets hP v).mpr hv), LogLinear.index_of_lt hv, UInt64.toNat_toUInt32]
    omega
  · rw [if_neg (mt (lt_kSubBuckets hP v).mp hv)]
    rw [not_lt] at hv
    have hquot : 2 ^ kPrecision.toNat ≤ _ := LogLinear.le_quotient hv
    have hidx : LogLinear.index kPrecision.toNat v.toNat < _ := LogLinear.index_lt v.toNat_lt
    rw [← kBucketCount_toNat hP] at hidx
    have h32 := UInt32.toNat_lt (kBucketCount kPrecision)
    have hsub : kSubBuckets kPrecision ≤ (v >>> (floorLog2 v - kPrecision).toUInt64).toUInt32 := by
      rw [UInt32.le_iff_toNat_le, quotient_toNat hP hv, kSubBuckets_toNat hP]
      exact hquot
    rw [LogLinear.index] at hidx ⊢
    rw [UInt32.toNat_add, block_toNat hP hv, UInt32.toNat_sub_of_le _ _ hsub, quotient_toNat hP hv,
      kSubBuckets_toNat hP, Nat.add_one_mul, Nat.mod_eq_of_lt (by omega)]
    omega

theorem indexOf_lt (v : UInt64) : indexOf kPrecision v < kBucketCount kPrecision := by
  rw [UInt32.lt_iff_toNat_lt, indexOf_toNat hP, kBucketCount_toNat hP]
  exact LogLinear.index_lt v.toNat_lt

theorem indexOf_mono {v w : UInt64} (h : v ≤ w) : indexOf kPrecision v ≤ indexOf kPrecision w := by
  rw [UInt32.le_iff_toNat_le, indexOf_toNat hP, indexOf_toNat hP]
  exact LogLinear.index_mono (UInt64.le_iff_toNat_le.mp h)

/-! ### A bucket read back -/

section upper

variable {v : UInt64} (hv : 2 ^ kPrecision.toNat ≤ v.toNat)

include hv

theorem block_indexOf : (indexOf kPrecision v >>> kPrecision).toNat =
    LogLinear.shift kPrecision.toNat v.toNat + 1 := by
  have hp := precision_toNat hP
  have hquot : 2 ^ kPrecision.toNat ≤ _ := LogLinear.le_quotient hv
  have hquot' : v.toNat / 2 ^ LogLinear.shift kPrecision.toNat v.toNat < _ := LogLinear.quotient_lt v.toNat
  rw [Nat.pow_succ] at hquot'
  rw [UInt32.toNat_shiftRight, Nat.mod_eq_of_lt (by omega), Nat.shiftRight_eq_div_pow, indexOf_toNat hP,
    LogLinear.index, Nat.add_comm, Nat.add_mul_div_right _ _ (Nat.two_pow_pos _), Nat.add_comm]
  have hone : v.toNat / 2 ^ LogLinear.shift kPrecision.toNat v.toNat / 2 ^ kPrecision.toNat = 1 :=
    Nat.div_eq_of_lt_le (by omega) (by omega)
  rw [hone]

theorem sub_indexOf : (indexOf kPrecision v &&& (kSubBuckets kPrecision - 1)).toNat =
    v.toNat / 2 ^ LogLinear.shift kPrecision.toNat v.toNat - 2 ^ kPrecision.toNat := by
  have hpos := Nat.two_pow_pos kPrecision.toNat
  have hquot : 2 ^ kPrecision.toNat ≤ _ := LogLinear.le_quotient hv
  have hquot' : v.toNat / 2 ^ LogLinear.shift kPrecision.toNat v.toNat < _ := LogLinear.quotient_lt v.toNat
  rw [Nat.pow_succ] at hquot'
  have hone : 1 ≤ kSubBuckets kPrecision := by
    rw [UInt32.le_iff_toNat_le, kSubBuckets_toNat hP]
    exact hpos
  rw [UInt32.toNat_and, UInt32.toNat_sub_of_le _ _ hone, kSubBuckets_toNat hP, UInt32.toNat_one,
    Nat.and_two_pow_sub_one_eq_mod, indexOf_toNat hP, LogLinear.index, Nat.mul_add_mod_self_right,
    Nat.mod_eq_sub_mod hquot, Nat.mod_eq_of_lt (by omega)]

theorem lt_indexOf : ¬ indexOf kPrecision v < kSubBuckets kPrecision := by
  have hquot : 2 ^ kPrecision.toNat ≤ _ := LogLinear.le_quotient hv
  rw [lt_kSubBuckets_index hP, indexOf_toNat hP, LogLinear.index]
  omega

theorem shift_indexOf : ((indexOf kPrecision v >>> kPrecision) - 1).toUInt64.toNat =
    LogLinear.shift kPrecision.toNat v.toNat := by
  have hblock := block_indexOf hP hv
  have hone : 1 ≤ indexOf kPrecision v >>> kPrecision := by
    rw [UInt32.le_iff_toNat_le, hblock]
    exact Nat.le_add_left 1 _
  rw [UInt32.toNat_toUInt64, UInt32.toNat_sub_of_le _ _ hone, hblock, UInt32.toNat_one, Nat.add_sub_cancel]

theorem bucketLower_indexOf : (bucketLower kPrecision (indexOf kPrecision v)).toNat =
    v.toNat / 2 ^ LogLinear.shift kPrecision.toNat v.toNat * 2 ^ LogLinear.shift kPrecision.toNat v.toNat := by
  have hpow := two_pow_precision hP
  have hquot : 2 ^ kPrecision.toNat ≤ _ := LogLinear.le_quotient hv
  have hquot' : v.toNat / 2 ^ LogLinear.shift kPrecision.toNat v.toNat < _ := LogLinear.quotient_lt v.toNat
  rw [Nat.pow_succ] at hquot'
  have hfits : v.toNat / 2 ^ LogLinear.shift kPrecision.toNat v.toNat *
      2 ^ LogLinear.shift kPrecision.toNat v.toNat < 2 ^ 64 :=
    Nat.lt_of_le_of_lt (Nat.div_mul_le_self _ _) v.toNat_lt
  rw [bucketLower, if_neg (lt_indexOf hP hv), UInt64.toNat_shiftLeft, shift_indexOf hP hv,
    Nat.mod_eq_of_lt (shift_lt kPrecision v), UInt32.toNat_toUInt64, UInt32.toNat_add, sub_indexOf hP hv,
    kSubBuckets_toNat hP, Nat.add_sub_cancel' hquot, Nat.mod_eq_of_lt (show v.toNat / _ < 2 ^ 32 by omega),
    Nat.shiftLeft_eq, Nat.mod_eq_of_lt hfits]

theorem bucketWidth_indexOf : (bucketWidth kPrecision (indexOf kPrecision v)).toNat =
    2 ^ LogLinear.shift kPrecision.toNat v.toNat := by
  have hshift := shift_lt kPrecision v
  rw [bucketWidth, if_neg (lt_indexOf hP hv), UInt64.toNat_shiftLeft, shift_indexOf hP hv, Nat.mod_eq_of_lt hshift,
    UInt64.toNat_one, Nat.one_shiftLeft, Nat.mod_eq_of_lt (Nat.pow_lt_pow_right (by omega) hshift)]

end upper

theorem indexOf_linear {v : UInt64} (hv : v.toNat < 2 ^ kPrecision.toNat) :
    indexOf kPrecision v < kSubBuckets kPrecision := by
  rw [lt_kSubBuckets_index hP, indexOf_toNat hP, LogLinear.index_of_lt hv]
  exact hv

theorem bucketMidpoint_indexOf (v : UInt64) :
    (bucketMidpoint kPrecision (indexOf kPrecision v)).toNat = LogLinear.midpoint kPrecision.toNat v.toNat := by
  by_cases hv : v.toNat < 2 ^ kPrecision.toNat
  · have hidx : indexOf kPrecision v < kSubBuckets kPrecision := indexOf_linear hP hv
    have hhalf : (1 : UInt64) / 2 = 0 := by decide
    rw [bucketMidpoint, bucketLower, bucketWidth, if_pos hidx, if_pos hidx, hhalf, UInt64.add_zero,
      UInt32.toNat_toUInt64, indexOf_toNat hP, LogLinear.index_of_lt hv, LogLinear.midpoint_of_lt hv]
  · rw [not_lt] at hv
    have htwo : (2 : UInt64).toNat = 2 := rfl
    have hfits : LogLinear.midpoint kPrecision.toNat v.toNat < 2 ^ 64 := by
      have hquot : v.toNat / 2 ^ LogLinear.shift kPrecision.toNat v.toNat < _ := LogLinear.quotient_lt v.toNat
      have hlog := LogLinear.log2_of_le hv
      have hlt := log2_lt v
      calc LogLinear.midpoint kPrecision.toNat v.toNat
          < (v.toNat / 2 ^ LogLinear.shift kPrecision.toNat v.toNat + 1) *
              2 ^ LogLinear.shift kPrecision.toNat v.toNat := (LogLinear.midpoint_bounds v.toNat).2
        _ ≤ 2 ^ (kPrecision.toNat + 1) * 2 ^ LogLinear.shift kPrecision.toNat v.toNat := Nat.mul_le_mul_right _ hquot
        _ = 2 ^ (kPrecision.toNat + 1 + LogLinear.shift kPrecision.toNat v.toNat) := (Nat.pow_add ..).symm
        _ ≤ 2 ^ 64 := Nat.pow_le_pow_right (by omega) (by omega)
    rw [LogLinear.midpoint] at hfits ⊢
    rw [bucketMidpoint, UInt64.toNat_add, UInt64.toNat_div, htwo, bucketLower_indexOf hP hv, bucketWidth_indexOf hP hv,
      Nat.mod_eq_of_lt hfits]

end widths

end Histogram

end SlickPerfmon
