import SlickPerfmon.Library.Moments
import SlickPerfmon.Stats.Accumulator

/-!
# Cutting samples into intervals

An accumulator that is merged into another leaves there what the other would hold had it been fed the samples
itself, and clearing it leaves an empty one: the histogram's occupied band holds every bucket in use.
-/

namespace SlickPerfmon

open Library

/-! ## What a stage needs of its accumulators -/

namespace Accum

variable {A : Type} [Accum A]

/-- One accumulator fed all of `vs`, in order. -/
def feed (vs : List UInt64) : A := vs.foldl add empty

theorem feed_append (vs : List UInt64) (v : UInt64) : (feed (vs ++ [v]) : A) = add (feed vs) v := by
  simp [feed]

/-- However samples are cut in two, merging the parts is feeding them all. -/
structure Lawful (A : Type) [Accum A] : Prop where
  count_feed : ∀ vs, count (feed vs : A) = vs.length
  clear_feed : ∀ vs, clear (feed vs : A) = feed []
  merge_feed : ∀ xs ys, mergeInto (feed ys : A) (feed xs) = feed (xs ++ ys)

end Accum

/-! ## The histogram -/

namespace Histogram

variable {kPrecision : UInt32}

/-- Every bucket in use lies in the occupied band. -/
structure Banded (h : Histogram kPrecision) : Prop where
  band : ∀ i, h.counts i ≠ 0 → h.usedLo ≤ i ∧ i ≤ h.usedHi
  lo : h.usedLo ≤ kBucketCount kPrecision
  unused : h.total = 0 → h = empty

theorem Banded.of_empty : (empty : Histogram kPrecision).Banded where
  band _ hi := absurd rfl hi
  lo := UInt32.le_refl _
  unused _ := rfl

theorem Banded.add {h : Histogram kPrecision} (hb : h.Banded) (v : UInt64) : (h.add v).Banded where
  band i hi := by
    have hlohi : ∀ j, (h.add v).usedLo ≤ j ∧ j ≤ (h.add v).usedHi ↔
        (j = indexOf kPrecision v ∨ h.usedLo ≤ j ∨ indexOf kPrecision v ≤ j) ∧
          (j ≤ h.usedHi ∨ j ≤ indexOf kPrecision v) := by
      intro j
      simp only [Histogram.add]
      grind
    rw [hlohi]
    by_cases hidx : i = indexOf kPrecision v
    · exact ⟨Or.inl hidx, Or.inr (by rw [hidx]; exact UInt32.le_refl _)⟩
    · have hold : h.counts i ≠ 0 := by simpa [Histogram.add, hidx] using hi
      exact ⟨Or.inr (Or.inl (hb.band i hold).1), Or.inl (hb.band i hold).2⟩
  lo := by
    have := hb.lo
    simp only [Histogram.add]
    grind
  unused h0 := absurd h0 (Nat.succ_ne_zero _)

theorem clear_banded {h : Histogram kPrecision} (hb : h.Banded) : h.clear = empty := by
  have hcounts : ∀ i, (if h.usedLo ≤ i ∧ i ≤ h.usedHi then 0 else h.counts i) = 0 := by
    intro i
    split
    · rfl
    · rename_i hout
      by_contra hne
      exact hout (hb.band i hne)
  simp only [clear, empty, mk.injEq, and_self, and_true]
  exact funext hcounts

/-- Within a banded histogram the band test of `merge` selects nothing. -/
theorem merge_banded (h : Histogram kPrecision) {other : Histogram kPrecision} (hb : other.Banded)
    (h0 : other.total ≠ 0) :
    h.merge other =
      { counts := fun i => h.counts i + other.counts i
        total := h.total + other.total
        usedLo := if other.usedLo < h.usedLo then other.usedLo else h.usedLo
        usedHi := if other.usedHi > h.usedHi then other.usedHi else h.usedHi } := by
  rw [merge, if_neg h0, mk.injEq]
  refine ⟨funext fun i => ?_, rfl, rfl, rfl⟩
  split
  · rfl
  · rename_i hout
    have hzero : other.counts i = 0 := by
      by_contra hne
      exact hout (hb.band i hne)
    rw [hzero, Nat.add_zero]

theorem merge_add {h other : Histogram kPrecision} (hh : h.Banded) (hb : other.Banded) (v : UInt64) :
    h.merge (other.add v) = (h.merge other).add v := by
  rw [merge_banded h (hb.add v) (Nat.succ_ne_zero _)]
  have hlo := hh.lo
  by_cases h0 : other.total = 0
  · have hmerge : h.merge other = h := by rw [merge, if_pos h0]
    rw [hmerge, hb.unused h0]
    simp only [add, empty, mk.injEq]
    refine ⟨funext fun i => ?_, trivial, ?_, ?_⟩
    · by_cases hidx : i = indexOf kPrecision v
      · simp [hidx]
      · simp [hidx]
    · grind
    · grind
  · rw [merge_banded h hb h0]
    simp only [add, mk.injEq]
    refine ⟨funext fun i => ?_, (Nat.add_assoc ..).symm, ?_, ?_⟩
    · by_cases hidx : i = indexOf kPrecision v
      · simp [hidx, Nat.add_assoc]
      · simp [hidx]
    · grind
    · grind

end Histogram

/-! ## The accumulator -/

namespace Accumulator

open Accum

variable {kPrecision : UInt32}

/-- The fields of the running moments. -/
def moments (a : Accumulator kPrecision) : Moments Rat := ⟨a.count, a.sum, a.mean, a.m2⟩

theorem moments_feed (vs : List UInt64) :
    (feed vs : Accumulator kPrecision).moments = .ofList (vs.map fun v => (v.toNat : Rat)) := by
  induction vs using List.reverseRecOn with
  | nil => rfl
  | append_singleton vs v ih =>
      rw [feed_append, List.map_append, Moments.ofList, List.foldl_append, ← Moments.ofList, ← ih]
      rfl

theorem moments_mergeInto (a dst : Accumulator kPrecision) (h0 : a.count ≠ 0) :
    (mergeInto a dst).moments = dst.moments.join a.moments := by
  rw [mergeInto, if_neg h0]
  rfl

/-- What is left of an accumulator beside its moments. -/
theorem eq_of_moments {a b : Accumulator kPrecision} (hm : a.moments = b.moments) (hmin : a.min = b.min)
    (hmax : a.max = b.max) (hh : a.hist = b.hist) : a = b := by
  cases a
  cases b
  simp only [moments, Moments.mk.injEq] at hm
  obtain ⟨rfl, rfl, rfl, rfl⟩ := hm
  cases hmin
  cases hmax
  cases hh
  rfl

theorem count_feed (vs : List UInt64) : (feed vs : Accumulator kPrecision).count = vs.length := by
  have hm := congrArg Moments.count (moments_feed vs : (feed vs : Accumulator kPrecision).moments = _)
  rw [Moments.ofList_eq] at hm
  simpa [moments, Moments.ofSums] using hm

theorem hist_banded (vs : List UInt64) : (feed vs : Accumulator kPrecision).hist.Banded := by
  induction vs using List.reverseRecOn with
  | nil => exact .of_empty
  | append_singleton vs v ih =>
      rw [feed_append]
      exact ih.add v

theorem le_kMaxValue (v : UInt64) : v ≤ kMaxValue := by
  have hv := v.toNat_lt
  rw [UInt64.le_iff_toNat_le]
  exact Nat.le_of_lt_succ hv

/-- The extremes of two parts, where the first may have no samples. -/
theorem min_mergeInto (xs : List UInt64) {a : Accumulator kPrecision} (h0 : a.count ≠ 0) :
    (mergeInto a (feed xs)).min =
      if a.min < (feed xs : Accumulator kPrecision).min then a.min else (feed xs : Accumulator kPrecision).min := by
  have hle := le_kMaxValue a.min
  simp only [mergeInto, if_neg h0, count_feed, List.length_eq_zero_iff]
  split
  · rename_i hxs
    have hmin : (feed xs : Accumulator kPrecision).min = kMaxValue := by rw [hxs]; rfl
    rw [hmin]
    grind
  · rfl

theorem max_mergeInto (xs : List UInt64) {a : Accumulator kPrecision} (h0 : a.count ≠ 0) :
    (mergeInto a (feed xs)).max =
      if a.max > (feed xs : Accumulator kPrecision).max then a.max else (feed xs : Accumulator kPrecision).max := by
  simp only [mergeInto, if_neg h0, count_feed, List.length_eq_zero_iff]
  split
  · rename_i hxs
    have hmax : (feed xs : Accumulator kPrecision).max = 0 := by rw [hxs]; rfl
    have hle : 0 ≤ a.max := UInt64.le_iff_toNat_le.mpr (Nat.zero_le _)
    rw [hmax]
    grind
  · rfl

theorem min_feed_append (xs ys : List UInt64) :
    (feed (xs ++ ys) : Accumulator kPrecision).min =
      if (feed ys : Accumulator kPrecision).min < (feed xs : Accumulator kPrecision).min then
        (feed ys : Accumulator kPrecision).min else (feed xs : Accumulator kPrecision).min := by
  induction ys using List.reverseRecOn with
  | nil =>
      have hle := le_kMaxValue (feed xs : Accumulator kPrecision).min
      rw [List.append_nil, if_neg]
      exact UInt64.not_lt.mpr hle
  | append_singleton ys v ih =>
      have hadd : ∀ a : Accumulator kPrecision, (Accum.add a v).min = if v < a.min then v else a.min := fun _ => rfl
      rw [← List.append_assoc, feed_append, feed_append, hadd, hadd, ih]
      grind

theorem max_feed_append (xs ys : List UInt64) :
    (feed (xs ++ ys) : Accumulator kPrecision).max =
      if (feed ys : Accumulator kPrecision).max > (feed xs : Accumulator kPrecision).max then
        (feed ys : Accumulator kPrecision).max else (feed xs : Accumulator kPrecision).max := by
  induction ys using List.reverseRecOn with
  | nil =>
      have hle : 0 ≤ (feed xs : Accumulator kPrecision).max := UInt64.le_iff_toNat_le.mpr (Nat.zero_le _)
      rw [List.append_nil, if_neg]
      exact UInt64.not_lt.mpr hle
  | append_singleton ys v ih =>
      have hadd : ∀ a : Accumulator kPrecision, (Accum.add a v).max = if v > a.max then v else a.max := fun _ => rfl
      rw [← List.append_assoc, feed_append, feed_append, hadd, hadd, ih]
      grind

theorem hist_feed_append (xs ys : List UInt64) :
    (feed xs : Accumulator kPrecision).hist.merge (feed ys : Accumulator kPrecision).hist =
      (feed (xs ++ ys) : Accumulator kPrecision).hist := by
  induction ys using List.reverseRecOn with
  | nil => rw [List.append_nil]; rfl
  | append_singleton ys v ih =>
      have hadd : ∀ a : Accumulator kPrecision, (Accum.add a v).hist = a.hist.add v := fun _ => rfl
      rw [← List.append_assoc, feed_append, feed_append, hadd, hadd, ← ih]
      exact Histogram.merge_add (hist_banded xs) (hist_banded ys) v

theorem lawful (kPrecision : UInt32) : Lawful (Accumulator kPrecision) where
  count_feed := count_feed
  clear_feed vs := by
    have hhist : (feed vs : Accumulator kPrecision).hist.clear = .empty := Histogram.clear_banded (hist_banded vs)
    change clear (feed vs) = Accumulator.empty
    rw [clear, hhist]
    rfl
  merge_feed xs ys := by
    change mergeInto (feed ys) (feed xs) = _
    by_cases hys : ys = []
    · rw [hys, List.append_nil]
      rfl
    · have h0 : (feed ys : Accumulator kPrecision).count ≠ 0 := by
        rw [count_feed]
        exact fun h => hys (List.length_eq_zero_iff.mp h)
      refine eq_of_moments ?_ ?_ ?_ ?_
      · rw [moments_mergeInto _ _ h0, moments_feed, moments_feed, moments_feed, List.map_append]
        exact Moments.join_ofList _ (by simpa using hys)
      · rw [min_mergeInto xs h0, min_feed_append]
      · rw [max_mergeInto xs h0, max_feed_append]
      · rw [← hist_feed_append, mergeInto, if_neg h0]

/-- The textbook sums. -/
theorem textbook (kPrecision : UInt32) (vs : List UInt64) :
    let a : Accumulator kPrecision := feed vs
    let xs : List Rat := vs.map fun v => (v.toNat : Rat)
    a.count = vs.length ∧ a.sum = xs.sum ∧ a.mean = a.sum / a.count ∧
      a.m2 = (xs.map fun x => (x - a.mean) ^ 2).sum := by
  intro a xs
  have hm : a.moments = .ofList xs := moments_feed vs
  have hsums := hm.trans (Moments.ofList_eq xs)
  have hcount : a.count = vs.length := count_feed vs
  have hsum : a.sum = xs.sum := congrArg Moments.sum hsums
  have hmean : a.mean = a.sum / a.count := by
    have hlist : a.mean = xs.sum / xs.length := (congrArg Moments.mean hm).trans (Moments.mean_ofList xs)
    rw [hlist, hsum, hcount, List.length_map]
  refine ⟨hcount, hsum, hmean, ?_⟩
  have hlist : a.m2 = (xs.map fun x => (x - xs.sum / xs.length) ^ 2).sum :=
    (congrArg Moments.m2 hm).trans (Moments.m2_ofList xs)
  rw [hlist, hmean, hsum, hcount, List.length_map]

end Accumulator

end SlickPerfmon
