import SlickPerfmon.Stats.Percentile

/-!
# The bucket mapping

`index_of`, `bucket_lower`, `bucket_width` and `bucket_midpoint` at the source's widths, for any bucket and not only
the bucket of a given value.
-/

namespace SlickPerfmon.Histogram

open Library

/-- The contract of the mapping. Sums are of naturals, so that none of them wraps. -/
structure BucketMapping (kPrecision : UInt32) : Prop where
  inRange : ∀ v, indexOf kPrecision v < kBucketCount kPrecision
  lowerLe : ∀ v, bucketLower kPrecision (indexOf kPrecision v) ≤ v
  withinWidth : ∀ v, v - bucketLower kPrecision (indexOf kPrecision v) < bucketWidth kPrecision (indexOf kPrecision v)
  mono : ∀ v w, v ≤ w → indexOf kPrecision v ≤ indexOf kPrecision w
  ofLower : ∀ i, i < kBucketCount kPrecision → indexOf kPrecision (bucketLower kPrecision i) = i
  next : ∀ i, i < kBucketCount kPrecision → i + 1 < kBucketCount kPrecision →
    (bucketLower kPrecision i).toNat + (bucketWidth kPrecision i).toNat = (bucketLower kPrecision (i + 1)).toNat
  last : ∀ i, i < kBucketCount kPrecision → ¬ i + 1 < kBucketCount kPrecision →
    (bucketLower kPrecision i).toNat + (bucketWidth kPrecision i).toNat = 2 ^ 64
  /-- Every value is in one bucket and in no other. -/
  own : ∀ v i, i < kBucketCount kPrecision → (indexOf kPrecision v = i ↔ (bucketLower kPrecision i).toNat ≤ v.toNat ∧
    v.toNat < (bucketLower kPrecision i).toNat + (bucketWidth kPrecision i).toNat)
  midpointFits : ∀ v, (bucketMidpoint kPrecision (indexOf kPrecision v)).toNat =
    (bucketLower kPrecision (indexOf kPrecision v)).toNat + (bucketWidth kPrecision (indexOf kPrecision v)).toNat / 2
  error : ∀ v, |((bucketMidpoint kPrecision (indexOf kPrecision v)).toNat : Int) - v.toNat| *
    2 ^ (kPrecision.toNat + 1) ≤ v.toNat

section widths

variable {kPrecision : UInt32} (hP : kPrecision ≤ 26)

include hP

theorem lower_fits {i : UInt32} (hi : i < kBucketCount kPrecision) :
    LogLinear.lower kPrecision.toNat i.toNat < 2 ^ 64 := by
  have hp := precision_toNat hP
  rw [UInt32.lt_iff_toNat_lt, kBucketCount_toNat hP] at hi
  exact LogLinear.lower_lt (by omega) hi

/-- Each bucket is the bucket of some value, the first one in it. -/
theorem exists_indexOf {i : UInt32} (hi : i < kBucketCount kPrecision) :
    ∃ v : UInt64, v.toNat = LogLinear.lower kPrecision.toNat i.toNat ∧ indexOf kPrecision v = i := by
  refine ⟨UInt64.ofNat (LogLinear.lower kPrecision.toNat i.toNat), ?_, ?_⟩
  · exact UInt64.toNat_ofNat_of_lt' (lower_fits hP hi)
  · apply UInt32.toNat_inj.mp
    rw [indexOf_toNat hP, UInt64.toNat_ofNat_of_lt' (lower_fits hP hi), LogLinear.index_lower]

theorem bucketLower_toNat {i : UInt32} (hi : i < kBucketCount kPrecision) :
    (bucketLower kPrecision i).toNat = LogLinear.lower kPrecision.toNat i.toNat := by
  obtain ⟨v, -, rfl⟩ := exists_indexOf hP hi
  rw [indexOf_toNat hP, LogLinear.lower_index]
  by_cases hv : v.toNat < 2 ^ kPrecision.toNat
  · rw [bucketLower, if_pos (indexOf_linear hP hv), UInt32.toNat_toUInt64, indexOf_toNat hP, LogLinear.index_of_lt hv,
      LogLinear.shift_of_lt hv]
    simp
  · exact bucketLower_indexOf hP (by omega)

theorem bucketWidth_toNat {i : UInt32} (hi : i < kBucketCount kPrecision) :
    (bucketWidth kPrecision i).toNat = LogLinear.width kPrecision.toNat i.toNat := by
  obtain ⟨v, -, rfl⟩ := exists_indexOf hP hi
  rw [indexOf_toNat hP, LogLinear.width_index]
  by_cases hv : v.toNat < 2 ^ kPrecision.toNat
  · rw [bucketWidth, if_pos (indexOf_linear hP hv), LogLinear.shift_of_lt hv]
    rfl
  · exact bucketWidth_indexOf hP (by omega)

theorem indexOf_eq_iff (v : UInt64) {i : UInt32} (hi : i < kBucketCount kPrecision) :
    indexOf kPrecision v = i ↔ (bucketLower kPrecision i).toNat ≤ v.toNat ∧
      v.toNat < (bucketLower kPrecision i).toNat + (bucketWidth kPrecision i).toNat := by
  rw [← UInt32.toNat_inj, indexOf_toNat hP, bucketLower_toNat hP hi, bucketWidth_toNat hP hi]
  exact LogLinear.index_eq_iff

omit hP in
theorem toNat_add_one {i : UInt32} (hi : i < kBucketCount kPrecision) : (i + 1).toNat = i.toNat + 1 := by
  have hfits := UInt32.toNat_lt (kBucketCount kPrecision)
  rw [UInt32.lt_iff_toNat_lt] at hi
  rw [UInt32.toNat_add, UInt32.toNat_one, Nat.mod_eq_of_lt (by omega)]

theorem bucketLower_add_bucketWidth {i : UInt32} (hi : i < kBucketCount kPrecision) :
    (bucketLower kPrecision i).toNat + (bucketWidth kPrecision i).toNat =
      LogLinear.lower kPrecision.toNat (i + 1).toNat := by
  rw [bucketLower_toNat hP hi, bucketWidth_toNat hP hi, LogLinear.lower_add_width, toNat_add_one hi]

/-- The buckets cut the values of 64 bits without a gap or an overlap, and none reports a value further off than half
of its width. -/
theorem bucket_mapping : BucketMapping kPrecision where
  inRange := indexOf_lt hP
  lowerLe v := UInt64.le_iff_toNat_le.mpr ((indexOf_eq_iff hP v (indexOf_lt hP v)).mp rfl).1
  withinWidth v := by
    obtain ⟨hle, hlt⟩ := (indexOf_eq_iff hP v (indexOf_lt hP v)).mp rfl
    rw [UInt64.lt_iff_toNat_lt, UInt64.toNat_sub_of_le _ _ (UInt64.le_iff_toNat_le.mpr hle)]
    omega
  mono _ _ := indexOf_mono hP
  ofLower i hi := by
    obtain ⟨v, hv, hidx⟩ := exists_indexOf hP hi
    have hown : bucketLower kPrecision i = v := by
      apply UInt64.toNat_inj.mp
      rw [bucketLower_toNat hP hi, hv]
    rw [hown, hidx]
  next i hi hnext := by rw [bucketLower_add_bucketWidth hP hi, bucketLower_toNat hP hnext]
  last i hi hlast := by
    have hp := precision_toNat hP
    have hcount : (i + 1).toNat = (kBucketCount kPrecision).toNat := by
      have hsucc := toNat_add_one hi
      rw [UInt32.lt_iff_toNat_lt] at hi hlast
      omega
    rw [bucketLower_add_bucketWidth hP hi, hcount, kBucketCount_toNat hP, LogLinear.lower_count (by omega)]
  own v _ hi := indexOf_eq_iff hP v hi
  midpointFits v := by
    rw [bucketMidpoint_indexOf hP, LogLinear.midpoint_eq, bucketLower_toNat hP (indexOf_lt hP v),
      bucketWidth_toNat hP (indexOf_lt hP v), indexOf_toNat hP]
  error v := by
    rw [bucketMidpoint_indexOf hP]
    exact LogLinear.midpoint_error v.toNat

end widths

/-- The precision the library is built with unless told otherwise. -/
theorem bucket_mapping_four : BucketMapping 4 := bucket_mapping (by decide)

end SlickPerfmon.Histogram
