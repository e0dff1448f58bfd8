import SlickPerfmon.Stats.Percentile

/-!
# The occupied band

`clear`, `merge` and `percentile` touch only the buckets between the first and the last in use. Any number of
histograms put through any operations hold what histograms that go over the whole array do.
-/

namespace SlickPerfmon

/-- What histograms are put through. -/
class HistogramOps (H : Type) where
  empty : H
  add : H → UInt64 → H
  clear : H → H
  merge : H → H → H

/-- One call, on the histograms of a program named by `ι`. -/
inductive HistogramCall (ι : Type) where
  | add (i : ι) (value : UInt64)
  | clear (i : ι)
  | merge (i other : ι)

namespace HistogramCall

variable {ι H : Type} [DecidableEq ι] [HistogramOps H]

def run (hs : ι → H) : HistogramCall ι → ι → H
  | .add i value => Function.update hs i (HistogramOps.add (hs i) value)
  | .clear i => Function.update hs i (HistogramOps.clear (hs i))
  | .merge i other => Function.update hs i (HistogramOps.merge (hs i) (hs other))

/-- All the calls, on histograms that start empty. -/
def runAll (calls : List (HistogramCall ι)) : ι → H := calls.foldl run fun _ => HistogramOps.empty

end HistogramCall

/-! ## Going over the whole array -/

/-- A histogram that keeps no band. -/
structure FullHistogram (kPrecision : UInt32) where
  counts : UInt32 → Nat
  total : Nat

namespace Histogram

/-- Every bucket of the array. -/
def buckets (kPrecision : UInt32) : List UInt32 := indices 0 (kBucketCount kPrecision - 1)

end Histogram

namespace FullHistogram

open Histogram (buckets indexOf bucketMidpoint nearestRank walk)

variable {kPrecision : UInt32}

def empty : FullHistogram kPrecision := ⟨fun _ => 0, 0⟩

def add (h : FullHistogram kPrecision) (value : UInt64) : FullHistogram kPrecision :=
  let i := indexOf kPrecision value
  ⟨Function.update h.counts i (h.counts i + 1), h.total + 1⟩

def clear (_ : FullHistogram kPrecision) : FullHistogram kPrecision := ⟨fun _ => 0, 0⟩

def merge (h other : FullHistogram kPrecision) : FullHistogram kPrecision :=
  ⟨fun i => h.counts i + other.counts i, h.total + other.total⟩

/-- The first bucket in use, searched for. -/
def firstUsed (h : FullHistogram kPrecision) : UInt32 :=
  ((buckets kPrecision).find? fun i => h.counts i ≠ 0).getD 0

def lastUsed (h : FullHistogram kPrecision) : UInt32 :=
  ((buckets kPrecision).reverse.find? fun i => h.counts i ≠ 0).getD 0

def percentile (h : FullHistogram kPrecision) (p : Percent) : UInt64 :=
  if h.total = 0 then 0
  else
    match p with
    | .notPositive => bucketMidpoint kPrecision h.firstUsed
    | .hundred => bucketMidpoint kPrecision h.lastUsed
    | .scaled s =>
        let want := nearestRank s (UInt64.ofNat h.total)
        bucketMidpoint kPrecision ((walk h.counts want 0 (buckets kPrecision)).getD h.lastUsed)

end FullHistogram

instance (kPrecision : UInt32) : HistogramOps (Histogram kPrecision) where
  empty := .empty
  add := .add
  clear := .clear
  merge := .merge

instance (kPrecision : UInt32) : HistogramOps (FullHistogram kPrecision) where
  empty := .empty
  add := .add
  clear := .clear
  merge := .merge

/-! ## The band is exact -/

namespace Histogram

variable {kPrecision : UInt32}

/-- The band begins and ends at buckets in use, and the total is that of the buckets. -/
structure Tight (h : Histogram kPrecision) : Prop extends h.Banded where
  ends : h.total ≠ 0 → h.counts h.usedLo ≠ 0 ∧ h.counts h.usedHi ≠ 0
  hi : h.usedHi < kBucketCount kPrecision
  sum : h.total = ((buckets kPrecision).map h.counts).sum

theorem Tight.lo_lt {h : Histogram kPrecision} (ht : h.Tight) (h0 : h.total ≠ 0) :
    h.usedLo < kBucketCount kPrecision :=
  UInt32.lt_of_le_of_lt (ht.band _ (ht.ends h0).1).2 ht.hi

theorem mem_buckets (hP : kPrecision ≤ 26) {i : UInt32} :
    i ∈ buckets kPrecision ↔ i < kBucketCount kPrecision := by
  have hpos : 1 ≤ kBucketCount kPrecision := by
    rw [UInt32.le_iff_toNat_le, kBucketCount_toNat hP]
    exact Nat.mul_pos (Nat.succ_pos _) (Nat.two_pow_pos _)
  have hzero : 0 ≤ i := UInt32.le_iff_toNat_le.mpr (Nat.zero_le _)
  have hone : (1 : UInt32).toNat = 1 := rfl
  rw [UInt32.le_iff_toNat_le, hone] at hpos
  rw [buckets, mem_indices, and_iff_right hzero, UInt32.le_iff_toNat_le, UInt32.lt_iff_toNat_lt,
    UInt32.toNat_sub_of_le _ _ (by rw [UInt32.le_iff_toNat_le]; exact hpos), hone]
  omega

/-- Counting one more in a bucket of the array. -/
theorem sum_update {l : List UInt32} (hnd : l.Nodup) {i : UInt32} (hi : i ∈ l) (counts : UInt32 → Nat) :
    (l.map (Function.update counts i (counts i + 1))).sum = (l.map counts).sum + 1 := by
  obtain ⟨before, after, rfl⟩ := List.append_of_mem hi
  rw [List.nodup_append, List.nodup_cons] at hnd
  obtain ⟨-, ⟨hafter, -⟩, hbefore⟩ := hnd
  have hout : ∀ l : List UInt32, i ∉ l → l.map (Function.update counts i (counts i + 1)) = l.map counts := by
    intro l hl
    refine List.map_congr_left fun j hj => Function.update_of_ne ?_ _ _
    rintro rfl
    exact hl hj
  have hnot : i ∉ before := fun hmem => hbefore i hmem i (List.mem_cons_self ..) rfl
  simp only [List.map_append, List.map_cons, List.sum_append, List.sum_cons, Function.update_self, hout before hnot,
    hout after hafter]
  omega

theorem Tight.of_empty (hP : kPrecision ≤ 26) : (empty : Histogram kPrecision).Tight where
  toBanded := .of_empty
  ends h0 := absurd rfl h0
  hi := by
    rw [UInt32.lt_iff_toNat_lt, kBucketCount_toNat hP]
    exact Nat.mul_pos (Nat.succ_pos _) (Nat.two_pow_pos _)
  sum := by simp [empty]

theorem add_counts_ne_zero (h : Histogram kPrecision) (v : UInt64) (j : UInt32) :
    (h.add v).counts j ≠ 0 ↔ j = indexOf kPrecision v ∨ h.counts j ≠ 0 := by
  by_cases hj : j = indexOf kPrecision v
  · simp [Histogram.add, hj]
  · simp [Histogram.add, hj]

theorem Tight.add (hP : kPrecision ≤ 26) {h : Histogram kPrecision} (ht : h.Tight) (v : UInt64) :
    (h.add v).Tight where
  toBanded := ht.toBanded.add v
  ends _ := by
    have hidx := indexOf_lt hP v
    rw [add_counts_ne_zero, add_counts_ne_zero]
    simp only [Histogram.add]
    by_cases h0 : h.total = 0
    · -- an empty histogram takes the bucket as both ends
      rw [ht.unused h0]
      simp only [empty]
      grind
    · have hends := ht.ends h0
      grind
  hi := by
    have hidx := indexOf_lt hP v
    have hhi := ht.hi
    simp only [Histogram.add]
    split
    · exact hidx
    · exact hhi
  sum := by
    have hmem : indexOf kPrecision v ∈ buckets kPrecision := (mem_buckets hP).mpr (indexOf_lt hP v)
    have hsum := sum_update (indices_nodup _ _) hmem h.counts
    rw [← buckets, ← ht.sum] at hsum
    exact hsum.symm

theorem Tight.clear (hP : kPrecision ≤ 26) {h : Histogram kPrecision} (ht : h.Tight) : h.clear.Tight := by
  rw [clear_banded ht.toBanded]
  exact .of_empty hP

theorem Tight.merge {h other : Histogram kPrecision} (ht : h.Tight) (ho : other.Tight) : (h.merge other).Tight := by
  by_cases h0 : other.total = 0
  · rw [Histogram.merge, if_pos h0]
    exact ht
  · rw [merge_banded h ho.toBanded h0]
    have hends := ho.ends h0
    have hlo := ho.lo_lt h0
    constructor
    · constructor
      · intro i hi
        have hband := ht.band i
        have hoband := ho.band i
        simp only at hi ⊢
        grind
      · have hle := ht.lo
        simp only
        grind
      · intro hsum
        exact absurd hsum (by simp only; omega)
    · intro _
      simp only
      by_cases ht0 : h.total = 0
      · rw [ht.unused ht0]
        simp only [empty]
        grind
      · have hown := ht.ends ht0
        grind
    · have hhi := ht.hi
      have hohi := ho.hi
      simp only
      grind
    · simp only [List.sum_map_add, ht.sum, ho.sum]

end Histogram

/-! ## Against the whole array -/

namespace Histogram

variable {kPrecision : UInt32}

/-- What `h` and a histogram without the band have in common. -/
structure Refines (h : Histogram kPrecision) (f : FullHistogram kPrecision) : Prop where
  tight : h.Tight
  counts : h.counts = f.counts
  total : h.total = f.total

section percentile

variable {h : Histogram kPrecision} {f : FullHistogram kPrecision} (hr : h.Refines f) (h0 : h.total ≠ 0)

include hr

theorem Refines.mem_band (hP : kPrecision ≤ 26) (i : UInt32) :
    (i ∈ indices h.usedLo h.usedHi ∧ f.counts i ≠ 0) ↔ (i ∈ buckets kPrecision ∧ f.counts i ≠ 0) := by
  have hhi := hr.tight.hi
  have hband := hr.tight.band i
  rw [hr.counts] at hband
  rw [mem_indices, mem_buckets hP]
  constructor
  · rintro ⟨hin, hi⟩
    exact ⟨UInt32.lt_of_le_of_lt hin.2 hhi, hi⟩
  · rintro ⟨-, hi⟩
    exact ⟨hband hi, hi⟩

/-- The walk over the band is the walk over every bucket. -/
theorem Refines.walk_eq (hP : kPrecision ≤ 26) {want : UInt64} (hwant : 0 < want) :
    walk h.counts want 0 (indices h.usedLo h.usedHi) = walk f.counts want 0 (buckets kPrecision) := by
  have hsame : (indices h.usedLo h.usedHi).filter (fun i => f.counts i ≠ 0) =
      (buckets kPrecision).filter fun i => f.counts i ≠ 0 := by
    refine List.Pairwise.eq_of_mem_iff ((indices_sorted _ _).filter _) ((indices_sorted _ _).filter _) fun i => ?_
    simpa using hr.mem_band hP i
  rw [hr.counts, ← walk_filter _ _ hwant, hsame, walk_filter _ _ hwant]

include h0

theorem Refines.firstUsed_eq (hP : kPrecision ≤ 26) : h.firstUsed = f.firstUsed := by
  have hlo := hr.tight.lo_lt h0
  have hends := hr.tight.ends h0
  rw [hr.counts] at hends
  have hfind : (buckets kPrecision).find? (fun i => f.counts i ≠ 0) = some h.usedLo := by
    obtain ⟨before, after, hsplit⟩ := List.append_of_mem ((mem_buckets hP).mpr hlo)
    rw [List.find?_eq_some_iff_append]
    refine ⟨by simpa using hends.1, before, after, hsplit, ?_⟩
    intro i hi
    have hsorted := indices_sorted 0 (kBucketCount kPrecision - 1)
    rw [← buckets, hsplit, List.pairwise_append] at hsorted
    have hlt : i < h.usedLo := hsorted.2.2 i hi _ (List.mem_cons_self ..)
    have hband := hr.tight.band i
    rw [hr.counts] at hband
    grind
  rw [firstUsed, if_neg h0, FullHistogram.firstUsed, hfind, Option.getD_some]

theorem Refines.lastUsed_eq (hP : kPrecision ≤ 26) : h.lastUsed = f.lastUsed := by
  have hends := hr.tight.ends h0
  rw [hr.counts] at hends
  have hfind : (buckets kPrecision).reverse.find? (fun i => f.counts i ≠ 0) = some h.usedHi := by
    obtain ⟨before, after, hsplit⟩ := List.append_of_mem ((mem_buckets hP).mpr hr.tight.hi)
    rw [List.find?_eq_some_iff_append]
    refine ⟨by simpa using hends.2, after.reverse, before.reverse, by simp [hsplit], ?_⟩
    intro i hi
    have hsorted := indices_sorted 0 (kBucketCount kPrecision - 1)
    rw [← buckets, hsplit, List.pairwise_append, List.pairwise_cons] at hsorted
    have hlt : h.usedHi < i := hsorted.2.1.1 i (List.mem_reverse.mp hi)
    have hband := hr.tight.band i
    rw [hr.counts] at hband
    grind
  rw [lastUsed, if_neg h0, FullHistogram.lastUsed, hfind, Option.getD_some]

omit h0 in
theorem Refines.percentile_eq (hP : kPrecision ≤ 26) (p : Percent) : h.percentile p = f.percentile p := by
  unfold percentile FullHistogram.percentile
  rw [← hr.total]
  by_cases h0 : h.total = 0
  · rw [if_pos h0, if_pos h0]
  · rw [if_neg h0, if_neg h0, ← hr.firstUsed_eq h0 hP, ← hr.lastUsed_eq h0 hP]
    cases p with
    | notPositive => rfl
    | hundred => rfl
    | scaled s => simp only [hr.walk_eq hP (nearestRank_pos _ _)]

end percentile

theorem Refines.of_empty (hP : kPrecision ≤ 26) : (empty : Histogram kPrecision).Refines .empty :=
  ⟨.of_empty hP, rfl, rfl⟩

theorem Refines.add (hP : kPrecision ≤ 26) {h : Histogram kPrecision} {f : FullHistogram kPrecision}
    (hr : h.Refines f) (v : UInt64) : (h.add v).Refines (f.add v) where
  tight := hr.tight.add hP v
  counts := by simp only [Histogram.add, FullHistogram.add, hr.counts]
  total := by simp only [Histogram.add, FullHistogram.add, hr.total]

theorem Refines.clear (hP : kPrecision ≤ 26) {h : Histogram kPrecision} {f : FullHistogram kPrecision}
    (hr : h.Refines f) : h.clear.Refines f.clear := by
  rw [clear_banded hr.tight.toBanded]
  exact .of_empty hP

theorem Refines.merge {h other : Histogram kPrecision} {f fother : FullHistogram kPrecision}
    (hr : h.Refines f) (ho : other.Refines fother) : (h.merge other).Refines (f.merge fother) where
  tight := hr.tight.merge ho.tight
  counts := by
    by_cases h0 : other.total = 0
    · have hnone : fother.counts = fun _ => 0 := by rw [← ho.counts, ho.tight.unused h0]; rfl
      simp only [Histogram.merge, if_pos h0, FullHistogram.merge, hnone, hr.counts, Nat.add_zero]
    · rw [merge_banded h ho.tight.toBanded h0]
      simp only [FullHistogram.merge, hr.counts, ho.counts]
  total := by
    rw [FullHistogram.merge, ← hr.total, ← ho.total, Histogram.merge]
    split
    · rename_i h0
      rw [h0, Nat.add_zero]
    · rfl

end Histogram

namespace HistogramCall

variable {ι : Type} [DecidableEq ι] {kPrecision : UInt32}

/-- One call, on related histograms. -/
theorem refines_run (hP : kPrecision ≤ 26) {hs : ι → Histogram kPrecision} {fs : ι → FullHistogram kPrecision}
    (hr : ∀ i, (hs i).Refines (fs i)) (call : HistogramCall ι) (i : ι) :
    (call.run hs i).Refines (call.run fs i) := by
  have hupdate : ∀ (j : ι) {h : Histogram kPrecision} {f : FullHistogram kPrecision}, h.Refines f →
      (Function.update hs j h i).Refines (Function.update fs j f i) := by
    intro j h f hj
    by_cases hij : i = j
    · rw [hij, Function.update_self, Function.update_self]
      exact hj
    · rw [Function.update_of_ne hij, Function.update_of_ne hij]
      exact hr i
  cases call with
  | add j value => exact hupdate j ((hr j).add hP value)
  | clear j => exact hupdate j ((hr j).clear hP)
  | merge j other => exact hupdate j ((hr j).merge (hr other))

theorem refines_runAll (hP : kPrecision ≤ 26) (calls : List (HistogramCall ι)) (i : ι) :
    (runAll calls i : Histogram kPrecision).Refines (runAll calls i) := by
  induction calls using List.reverseRecOn generalizing i with
  | nil => exact .of_empty hP
  | append_singleton calls call ih =>
      rw [runAll, runAll, List.foldl_append, List.foldl_append]
      exact refines_run hP ih call i

/-- The occupied band loses nothing. -/
theorem band_loses_nothing (hP : kPrecision ≤ 26) (calls : List (HistogramCall ι)) (i : ι) :
    let h : Histogram kPrecision := runAll calls i
    let full : FullHistogram kPrecision := runAll calls i
    (∀ b, ¬ (h.usedLo ≤ b ∧ b ≤ h.usedHi) → h.counts b = 0) ∧
      (h.total ≠ 0 → h.counts h.usedLo ≠ 0 ∧ h.counts h.usedHi ≠ 0) ∧
      h.total = ((Histogram.buckets kPrecision).map h.counts).sum ∧
      h.counts = full.counts ∧ h.total = full.total ∧ ∀ p, h.percentile p = full.percentile p := by
  intro h full
  have hr : h.Refines full := refines_runAll hP calls i
  refine ⟨fun b hout => ?_, hr.tight.ends, hr.tight.sum, hr.counts, hr.total, hr.percentile_eq hP⟩
  by_contra hne
  exact hout (hr.tight.band b hne)

theorem band_of_self_merge :
    let calls : List (HistogramCall Bool) :=
      [.add true 5, .add true 900, .merge true true, .clear false, .merge false true]
    let h : Histogram 4 := runAll calls false
    let full : FullHistogram 4 := runAll calls false
    h.total = full.total ∧ h.percentile (.scaled 990000000) = full.percentile (.scaled 990000000) := by
  intro calls h full
  obtain ⟨-, -, -, -, htotal, hpercentile⟩ := @band_loses_nothing Bool _ 4 (by decide) calls false
  exact ⟨htotal, hpercentile _⟩

end HistogramCall

end SlickPerfmon
