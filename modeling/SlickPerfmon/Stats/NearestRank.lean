import SlickPerfmon.Stats.OccupiedBand

/-!
# Percentiles are nearest ranks

The percentile an accumulator reports is the middle of the bucket that holds the sample of the nearest rank,
clamped to the range observed, and so within half a bucket of that sample.
-/

namespace SlickPerfmon

open Library Accum

/-! ## The rank -/

/-- The scaled percentile that stands for the argument: both ends of the scale for what lies outside it. -/
def Percent.value : Percent → UInt64
  | notPositive => 0
  | hundred => Histogram.kRankScale
  | scaled s => s

namespace Histogram

theorem kRankScale_toNat : kRankScale.toNat = 10 ^ 9 := rfl

/-- No operation of `nearest_rank` leaves the range of a uint64. -/
def NoWrap (scaled n : UInt64) : Prop :=
  (n / kRankScale).toNat * scaled.toNat < 2 ^ 64 ∧
    (n % kRankScale).toNat * scaled.toNat + kRankScale.toNat < 2 ^ 64 ∧
    (n / kRankScale * scaled).toNat + ((n % kRankScale * scaled + kRankScale - 1) / kRankScale).toNat < 2 ^ 64

section rank

variable {s : UInt64} (hs : s ≤ kRankScale) (n : UInt64)

include hs

theorem scaled_le : s.toNat ≤ 10 ^ 9 := kRankScale_toNat ▸ UInt64.le_iff_toNat_le.mp hs

theorem part_lt : n.toNat % 10 ^ 9 * s.toNat + 10 ^ 9 < 2 ^ 64 := by
  have hle := scaled_le hs
  have hmod : n.toNat % 10 ^ 9 < 10 ^ 9 := Nat.mod_lt _ (by omega)
  have hprod : n.toNat % 10 ^ 9 * s.toNat ≤ (10 ^ 9 - 1) * 10 ^ 9 := Nat.mul_le_mul (by omega) hle
  omega

theorem part_toNat :
    (n % kRankScale * s + kRankScale - 1).toNat = n.toNat % 10 ^ 9 * s.toNat + 10 ^ 9 - 1 := by
  have hpart := part_lt hs n
  have hmul : (n % kRankScale * s).toNat = n.toNat % 10 ^ 9 * s.toNat := by
    rw [UInt64.toNat_mul, UInt64.toNat_mod, kRankScale_toNat, Nat.mod_eq_of_lt (by omega)]
  have hadd : (n % kRankScale * s + kRankScale).toNat = n.toNat % 10 ^ 9 * s.toNat + 10 ^ 9 := by
    rw [UInt64.toNat_add, hmul, kRankScale_toNat, Nat.mod_eq_of_lt hpart]
  have hone : (1 : UInt64) ≤ n % kRankScale * s + kRankScale := by
    rw [UInt64.le_iff_toNat_le, hadd, UInt64.toNat_one]
    omega
  rw [UInt64.toNat_sub_of_le _ _ hone, hadd, UInt64.toNat_one]

theorem whole_le : n.toNat / 10 ^ 9 * s.toNat ≤ n.toNat :=
  Nat.le_trans (Nat.mul_le_mul_left _ (scaled_le hs)) (Nat.div_mul_le_self _ _)

theorem whole_toNat : (n / kRankScale * s).toNat = n.toNat / 10 ^ 9 * s.toNat := by
  rw [UInt64.toNat_mul, UInt64.toNat_div, kRankScale_toNat,
    Nat.mod_eq_of_lt (Nat.lt_of_le_of_lt (whole_le hs n) n.toNat_lt)]

/-- The rounded-up product, never above the count. -/
theorem ceil_le : (n.toNat * s.toNat + 10 ^ 9 - 1) / 10 ^ 9 ≤ n.toNat := by
  have hprod : n.toNat * s.toNat ≤ n.toNat * 10 ^ 9 := Nat.mul_le_mul_left _ (scaled_le hs)
  rw [Nat.div_le_iff_le_mul_add_pred (by omega)]
  omega

theorem sum_toNat : (n / kRankScale * s).toNat + ((n % kRankScale * s + kRankScale - 1) / kRankScale).toNat =
    (n.toNat * s.toNat + 10 ^ 9 - 1) / 10 ^ 9 := by
  rw [whole_toNat hs, UInt64.toNat_div, part_toNat hs, kRankScale_toNat]
  exact ceilDiv_split n.toNat s.toNat (by omega)

theorem noWrap : NoWrap s n := by
  have hlt := n.toNat_lt
  refine ⟨?_, ?_, ?_⟩
  · rw [UInt64.toNat_div, kRankScale_toNat]
    exact Nat.lt_of_le_of_lt (whole_le hs n) hlt
  · rw [UInt64.toNat_mod, kRankScale_toNat]
    exact part_lt hs n
  · rw [sum_toNat hs]
    exact Nat.lt_of_le_of_lt (ceil_le hs n) hlt

theorem nearestRank_toNat :
    (nearestRank s n).toNat = max 1 ((n.toNat * s.toNat + 10 ^ 9 - 1) / 10 ^ 9) := by
  have hrank : (n / kRankScale * s + (n % kRankScale * s + kRankScale - 1) / kRankScale).toNat =
      (n.toNat * s.toNat + 10 ^ 9 - 1) / 10 ^ 9 := by
    have hsum := sum_toNat hs n
    rw [UInt64.toNat_add, hsum, Nat.mod_eq_of_lt (Nat.lt_of_le_of_lt (ceil_le hs n) n.toNat_lt)]
  simp only [nearestRank]
  split
  · rename_i h0
    rw [h0, UInt64.toNat_zero] at hrank
    rw [← hrank]
    rfl
  · rename_i h0
    have hpos := UInt64.lt_iff_toNat_lt.mp (UInt64.pos_iff_ne_zero.mpr h0)
    rw [UInt64.toNat_zero] at hpos
    omega

theorem nearestRank_le (hn : n ≠ 0) : (nearestRank s n).toNat ≤ n.toNat := by
  have hpos := UInt64.lt_iff_toNat_lt.mp (UInt64.pos_iff_ne_zero.mpr hn)
  have hceil := ceil_le hs n
  rw [UInt64.toNat_zero] at hpos
  rw [nearestRank_toNat hs]
  omega

theorem nearestRank_mono {s' : UInt64} (hs' : s' ≤ kRankScale) (hle : s ≤ s') :
    (nearestRank s n).toNat ≤ (nearestRank s' n).toNat := by
  have hprod : n.toNat * s.toNat ≤ n.toNat * s'.toNat := Nat.mul_le_mul_left _ (UInt64.le_iff_toNat_le.mp hle)
  have hceil : (n.toNat * s.toNat + 10 ^ 9 - 1) / 10 ^ 9 ≤ (n.toNat * s'.toNat + 10 ^ 9 - 1) / 10 ^ 9 :=
    Nat.div_le_div_right (by omega)
  rw [nearestRank_toNat hs, nearestRank_toNat hs']
  omega

end rank

/-- The loop of `percentile` is the walk to the first bucket that reaches the rank. -/
theorem walk_eq_firstReaching (counts : UInt32 → Nat) (want : UInt64) (bins : List Nat) : ∀ {seen : Nat},
    seen + (bins.map fun b => counts (UInt32.ofNat b)).sum < 2 ^ 64 →
      walk counts want (UInt64.ofNat seen) (bins.map UInt32.ofNat) =
        (firstReaching (fun b => counts (UInt32.ofNat b)) want.toNat seen bins).map UInt32.ofNat := by
  induction bins with
  | nil =>
      intro seen _
      rfl
  | cons b bins ih =>
      intro seen hfits
      rw [List.map_cons, List.sum_cons] at hfits
      have hseen : (UInt64.ofNat (seen + counts (UInt32.ofNat b))).toNat = seen + counts (UInt32.ofNat b) :=
        UInt64.toNat_ofNat_of_lt' (show _ < 2 ^ 64 by omega)
      have hreach :
          UInt64.ofNat (seen + counts (UInt32.ofNat b)) ≥ want ↔ want.toNat ≤ seen + counts (UInt32.ofNat b) := by
        rw [ge_iff_le, UInt64.le_iff_toNat_le, hseen]
      rw [List.map_cons, walk, firstReaching, ← UInt64.ofNat_add]
      by_cases hr : want.toNat ≤ seen + counts (UInt32.ofNat b)
      · rw [if_pos (hreach.mpr hr), if_pos hr]
        rfl
      · rw [if_neg (mt hreach.mp hr), if_neg hr]
        exact ih (by omega)

end Histogram

/-! ## The histogram of the samples -/

/-- The `k`-th smallest of the samples, counted from one. -/
def kthSmallest (vs : List UInt64) (k : Nat) : Option UInt64 := vs.mergeSort[k - 1]?

theorem mergeSort_sorted (vs : List UInt64) : vs.mergeSort.Pairwise (· ≤ ·) := by
  have hsorted := @List.pairwise_mergeSort _ (fun a b : UInt64 => decide (a ≤ b))
    (fun a b c hab hbc => by simpa using UInt64.le_trans (by simpa using hab) (by simpa using hbc))
    (fun a b => by simpa using UInt64.le_total a b) vs
  simpa using hsorted

theorem exists_kthSmallest {vs : List UInt64} {k : Nat} (hpos : 1 ≤ k) (hle : k ≤ vs.length) :
    ∃ x, kthSmallest vs k = some x := by
  have hlt : k - 1 < vs.mergeSort.length := by
    rw [List.length_mergeSort]
    omega
  exact ⟨_, List.getElem?_eq_getElem hlt⟩

theorem mem_of_kthSmallest {vs : List UInt64} {k : Nat} {x : UInt64} (hx : kthSmallest vs k = some x) : x ∈ vs :=
  (List.mergeSort_perm vs _).mem_iff.mp (List.mem_of_getElem? hx)

theorem kthSmallest_mono {vs : List UInt64} {k l : Nat} (hkl : k ≤ l) {x y : UInt64}
    (hx : kthSmallest vs k = some x) (hy : kthSmallest vs l = some y) : x ≤ y := by
  obtain ⟨hk, rfl⟩ := List.getElem?_eq_some_iff.mp hx
  obtain ⟨hl, rfl⟩ := List.getElem?_eq_some_iff.mp hy
  rcases Nat.eq_or_lt_of_le (Nat.sub_le_sub_right hkl 1) with heq | hlt
  · simp only [heq, UInt64.le_refl]
  · exact List.pairwise_iff_getElem.mp (mergeSort_sorted vs) _ _ hk hl hlt

/-- The first sample in order is the least, the last the greatest. -/
theorem kthSmallest_ends {vs : List UInt64} {x y v : UInt64} (hx : kthSmallest vs 1 = some x)
    (hy : kthSmallest vs vs.length = some y) (hv : v ∈ vs) : x ≤ v ∧ v ≤ y := by
  obtain ⟨i, hi, hvi⟩ := List.mem_iff_getElem.mp ((List.mergeSort_perm vs _).mem_iff.mpr hv)
  have hlen : vs.mergeSort.length = vs.length := List.length_mergeSort vs
  have hvk : kthSmallest vs (i + 1) = some v := by
    rw [kthSmallest, Nat.add_sub_cancel, List.getElem?_eq_getElem hi, hvi]
  exact ⟨kthSmallest_mono (Nat.le_add_left 1 i) hx hvk, kthSmallest_mono (by omega) hvk hy⟩

namespace Accumulator

variable {kPrecision : UInt32}

theorem add_hist (a : Accumulator kPrecision) (v : UInt64) : (Accum.add a v).hist = a.hist.add v := rfl

theorem hist_tight (hP : kPrecision ≤ 26) (vs : List UInt64) : (feed vs : Accumulator kPrecision).hist.Tight := by
  induction vs using List.reverseRecOn with
  | nil => exact .of_empty hP
  | append_singleton vs v ih =>
      rw [feed_append, add_hist]
      exact ih.add hP v

theorem total_feed (vs : List UInt64) : (feed vs : Accumulator kPrecision).hist.total = vs.length := by
  induction vs using List.reverseRecOn with
  | nil => rfl
  | append_singleton vs v ih =>
      rw [feed_append, add_hist, Histogram.add, ih, List.length_append, List.length_singleton]

theorem counts_feed (vs : List UInt64) (i : UInt32) :
    (feed vs : Accumulator kPrecision).hist.counts i = vs.countP fun v => Histogram.indexOf kPrecision v = i := by
  induction vs using List.reverseRecOn with
  | nil => rfl
  | append_singleton vs v ih =>
      rw [feed_append, add_hist, List.countP_append, List.countP_singleton, ← ih]
      by_cases hi : Histogram.indexOf kPrecision v = i
      · simp [Histogram.add, hi]
      · simp [Histogram.add, hi, Ne.symm hi]

/-- A bucket is in use when a sample lies in it. -/
theorem counts_feed_ne_zero (vs : List UInt64) (i : UInt32) :
    (feed vs : Accumulator kPrecision).hist.counts i ≠ 0 ↔ ∃ v ∈ vs, Histogram.indexOf kPrecision v = i := by
  rw [counts_feed, ← Nat.pos_iff_ne_zero, List.countP_pos_iff]
  simp

section samples

variable {vs : List UInt64} (hP : kPrecision ≤ 26) (hlen : vs.length < 2 ^ 64)

include hP

/-- The walk over the band ends at the bucket of the `k`-th smallest sample. -/
theorem walk_feed (hlen : vs.length < 2 ^ 64) {want : UInt64} (hpos : 1 ≤ want.toNat) {x : UInt64}
    (hx : kthSmallest vs want.toNat = some x) :
    let h := (feed vs : Accumulator kPrecision).hist
    Histogram.walk h.counts want 0 (Histogram.indices h.usedLo h.usedHi) =
      some (Histogram.indexOf kPrecision x) := by
  intro h
  let bucket : UInt64 → Nat := fun v => (Histogram.indexOf kPrecision v).toNat
  let bins := List.range' h.usedLo.toNat (h.usedHi.toNat + 1 - h.usedLo.toNat)
  have hsorted : bins.Pairwise (· < ·) := List.pairwise_lt_range' ..
  have hall : ∀ v ∈ vs, bucket v ∈ bins := by
    intro v hv
    have hin : h.usedLo ≤ Histogram.indexOf kPrecision v ∧ Histogram.indexOf kPrecision v ≤ h.usedHi :=
      (hist_tight hP vs).band _ ((counts_feed_ne_zero vs _).mpr ⟨v, hv, rfl⟩)
    have hlo : h.usedLo.toNat ≤ bucket v := UInt32.le_iff_toNat_le.mp hin.1
    have hhi : bucket v ≤ h.usedHi.toNat := UInt32.le_iff_toNat_le.mp hin.2
    rw [List.mem_range'_1]
    omega
  have hcount : ∀ b ∈ bins, h.counts (UInt32.ofNat b) = vs.countP fun v => bucket v = b := by
    intro b hb
    have hhi := UInt32.toNat_lt h.usedHi
    rw [List.mem_range'_1] at hb
    have hback : (UInt32.ofNat b).toNat = b := UInt32.toNat_ofNat_of_lt' (show b < 2 ^ 32 by omega)
    rw [counts_feed]
    refine List.countP_congr fun v _ => ?_
    rw [decide_eq_true_eq, decide_eq_true_eq, ← UInt32.toNat_inj, hback]
  have hfits : 0 + (bins.map fun b => h.counts (UInt32.ofNat b)).sum < 2 ^ 64 := by
    rw [List.map_congr_left hcount, sum_countP bucket vs (hsorted.imp Nat.ne_of_lt), Nat.zero_add]
    exact Nat.lt_of_le_of_lt List.countP_le_length hlen
  have hmono : vs.mergeSort.Pairwise fun a b => bucket a ≤ bucket b :=
    (mergeSort_sorted vs).imp fun hab => UInt32.le_iff_toNat_le.mp (Histogram.indexOf_mono hP hab)
  have hwalk := Histogram.walk_eq_firstReaching h.counts want bins hfits
  have hreach := firstReaching_sorted (List.mergeSort_perm vs _) hmono hx hsorted hall
  rw [Nat.sub_add_cancel hpos] at hreach
  rw [firstReaching_congr _ hcount, hreach] at hwalk
  rw [Histogram.indices]
  exact hwalk.trans (congrArg some UInt32.ofNat_toNat)

/-- The band begins at the bucket of the least sample and ends at that of the greatest. -/
theorem band_feed {x y : UInt64} (hx : kthSmallest vs 1 = some x) (hy : kthSmallest vs vs.length = some y) :
    (feed vs : Accumulator kPrecision).hist.usedLo = Histogram.indexOf kPrecision x ∧
      (feed vs : Accumulator kPrecision).hist.usedHi = Histogram.indexOf kPrecision y := by
  have ht : (feed vs : Accumulator kPrecision).hist.Tight := hist_tight hP vs
  have h0 : (feed vs : Accumulator kPrecision).hist.total ≠ 0 := by
    rw [total_feed, Ne, List.length_eq_zero_iff]
    exact List.ne_nil_of_mem (mem_of_kthSmallest hx)
  obtain ⟨hlo, hhi⟩ := ht.ends h0
  obtain ⟨v, hv, hvlo⟩ := (counts_feed_ne_zero vs _).mp hlo
  obtain ⟨w, hw, hwhi⟩ := (counts_feed_ne_zero vs _).mp hhi
  constructor
  · have hle := Histogram.indexOf_mono hP (kthSmallest_ends hx hy hv).1
    have hge := (ht.band _ ((counts_feed_ne_zero vs _).mpr ⟨x, mem_of_kthSmallest hx, rfl⟩)).1
    rw [hvlo] at hle
    exact UInt32.le_antisymm hge hle
  · have hle := Histogram.indexOf_mono hP (kthSmallest_ends hx hy hw).2
    have hge := (ht.band _ ((counts_feed_ne_zero vs _).mpr ⟨y, mem_of_kthSmallest hy, rfl⟩)).2
    rw [hwhi] at hle
    exact UInt32.le_antisymm hle hge

omit hP in
theorem length_toNat (hlen : vs.length < 2 ^ 64) : (UInt64.ofNat vs.length).toNat = vs.length :=
  UInt64.toNat_ofNat_of_lt' hlen

omit hP in
/-- The rank that `p` asks for. -/
theorem rank_bounds (hlen : vs.length < 2 ^ 64) (hne : vs ≠ []) {p : Percent}
    (hp : p.value ≤ Histogram.kRankScale) :
    1 ≤ (Histogram.nearestRank p.value (UInt64.ofNat vs.length)).toNat ∧
      (Histogram.nearestRank p.value (UInt64.ofNat vs.length)).toNat ≤ vs.length := by
  have hn := length_toNat hlen
  have h0 : UInt64.ofNat vs.length ≠ 0 := by
    intro h
    rw [h, UInt64.toNat_zero] at hn
    exact hne (List.length_eq_zero_iff.mp hn.symm)
  refine ⟨UInt64.lt_iff_toNat_lt.mp (Histogram.nearestRank_pos _ _), ?_⟩
  have hle := Histogram.nearestRank_le hp _ h0
  rwa [hn] at hle

/-- The percentile of the histogram is the middle of the bucket of the ranked sample. -/
theorem hist_percentile_feed (hlen : vs.length < 2 ^ 64) {p : Percent} (hp : p.value ≤ Histogram.kRankScale)
    {x : UInt64}
    (hx : kthSmallest vs (Histogram.nearestRank p.value (UInt64.ofNat vs.length)).toNat = some x) :
    (feed vs : Accumulator kPrecision).hist.percentile p =
      Histogram.bucketMidpoint kPrecision (Histogram.indexOf kPrecision x) := by
  have hne : vs ≠ [] := List.ne_nil_of_mem (mem_of_kthSmallest hx)
  have hpos : 1 ≤ vs.length := List.length_pos_iff.mpr hne
  have hn := length_toNat hlen
  have h0 : (feed vs : Accumulator kPrecision).hist.total ≠ 0 := by
    rw [total_feed]
    omega
  obtain ⟨lo, hlo⟩ := exists_kthSmallest (Nat.le_refl 1) hpos
  obtain ⟨hi, hhi⟩ := exists_kthSmallest hpos (Nat.le_refl _)
  obtain ⟨hfirst, hlast⟩ := band_feed hP hlo hhi
  unfold Histogram.percentile
  rw [if_neg h0]
  cases p with
  | notPositive =>
      have hrank : (Histogram.nearestRank Percent.notPositive.value (UInt64.ofNat vs.length)).toNat = 1 := by
        rw [Histogram.nearestRank_toNat hp, Percent.value, UInt64.toNat_zero, Nat.mul_zero]
        decide
      rw [hrank, hlo, Option.some_inj] at hx
      simp only [Histogram.firstUsed, if_neg h0, hfirst, hx]
  | hundred =>
      have hrank : (Histogram.nearestRank Percent.hundred.value (UInt64.ofNat vs.length)).toNat = vs.length := by
        rw [Histogram.nearestRank_toNat hp, Percent.value, Histogram.kRankScale_toNat, hn]
        omega
      rw [hrank, hhi, Option.some_inj] at hx
      simp only [Histogram.lastUsed, if_neg h0, hlast, hx]
  | scaled s =>
      have hwalk := walk_feed hP hlen (rank_bounds hlen hne hp).1 hx
      simp only [Percent.value] at hwalk
      simp only [total_feed, hwalk, Option.getD_some]

end samples

/-! ## The clamp -/

theorem add_min (a : Accumulator kPrecision) (v : UInt64) :
    (Accum.add a v).min = if v < a.min then v else a.min := rfl

theorem add_max (a : Accumulator kPrecision) (v : UInt64) :
    (Accum.add a v).max = if v > a.max then v else a.max := rfl

theorem min_feed_le (kPrecision : UInt32) (vs : List UInt64) :
    ∀ v ∈ vs, (feed vs : Accumulator kPrecision).min ≤ v := by
  induction vs using List.reverseRecOn with
  | nil => simp
  | append_singleton vs v ih =>
      intro w hw
      rw [feed_append, add_min]
      rw [List.mem_append, List.mem_singleton] at hw
      grind

theorem le_max_feed (kPrecision : UInt32) (vs : List UInt64) :
    ∀ v ∈ vs, v ≤ (feed vs : Accumulator kPrecision).max := by
  induction vs using List.reverseRecOn with
  | nil => simp
  | append_singleton vs v ih =>
      intro w hw
      rw [feed_append, add_max]
      rw [List.mem_append, List.mem_singleton] at hw
      grind

theorem min_mem_feed {vs : List UInt64} (hne : vs ≠ []) : (feed vs : Accumulator kPrecision).min ∈ vs := by
  induction vs using List.reverseRecOn with
  | nil => exact absurd rfl hne
  | append_singleton vs v ih =>
      rw [feed_append, add_min, List.mem_append, List.mem_singleton]
      by_cases hvs : vs = []
      · have hmax := le_kMaxValue v
        have hmin : (feed vs : Accumulator kPrecision).min = kMaxValue := by rw [hvs]; rfl
        rw [hmin]
        grind
      · have hmem := ih hvs
        split
        · exact Or.inr rfl
        · exact Or.inl hmem

theorem max_mem_feed {vs : List UInt64} (hne : vs ≠ []) : (feed vs : Accumulator kPrecision).max ∈ vs := by
  induction vs using List.reverseRecOn with
  | nil => exact absurd rfl hne
  | append_singleton vs v ih =>
      rw [feed_append, add_max, List.mem_append, List.mem_singleton]
      by_cases hvs : vs = []
      · have hzero : 0 ≤ v := UInt64.le_iff_toNat_le.mpr (Nat.zero_le _)
        have hmax : (feed vs : Accumulator kPrecision).max = 0 := by rw [hvs]; rfl
        rw [hmax]
        grind
      · have hmem := ih hvs
        split
        · exact Or.inr rfl
        · exact Or.inl hmem

/-- The clamp of `Accumulator::percentile`. -/
theorem percentile_eq_clamp {a : Accumulator kPrecision} (h0 : a.count ≠ 0) (hle : a.min ≤ a.max) (p : Percent) :
    (a.percentile p).toNat = Max.max a.min.toNat (Min.min (a.hist.percentile p).toNat a.max.toNat) := by
  rw [UInt64.le_iff_toNat_le] at hle
  rw [percentile, if_neg h0]
  simp only [gt_iff_lt, UInt64.lt_iff_toNat_lt]
  split
  · omega
  · split
    · omega
    · omega

section samples

variable {vs : List UInt64} (hP : kPrecision ≤ 26) (hlen : vs.length < 2 ^ 64)

include hP hlen

/-- Clamping to a range that holds the sample moves no value away from it. -/
theorem percentile_error {p : Percent} (hp : p.value ≤ Histogram.kRankScale) {x : UInt64}
    (hx : kthSmallest vs (Histogram.nearestRank p.value (UInt64.ofNat vs.length)).toNat = some x) :
    |(((feed vs : Accumulator kPrecision).percentile p).toNat : Int) - x.toNat| * 2 ^ (kPrecision.toNat + 1) ≤
      x.toNat := by
  have hmem := mem_of_kthSmallest hx
  have hne : vs ≠ [] := List.ne_nil_of_mem hmem
  have h0 : (feed vs : Accumulator kPrecision).count ≠ 0 := by
    rw [count_feed, Ne, List.length_eq_zero_iff]
    exact hne
  have hmin := min_feed_le kPrecision vs x hmem
  have hmax := le_max_feed kPrecision vs x hmem
  have hclamp := percentile_eq_clamp h0 (UInt64.le_trans hmin hmax) p
  rw [UInt64.le_iff_toNat_le] at hmin hmax
  have hhist : ((feed vs : Accumulator kPrecision).hist.percentile p).toNat =
      LogLinear.midpoint kPrecision.toNat x.toNat := by
    rw [hist_percentile_feed hP hlen hp hx, Histogram.bucketMidpoint_indexOf hP]
  rw [hhist] at hclamp
  have hnear : |(((feed vs : Accumulator kPrecision).percentile p).toNat : Int) - x.toNat| ≤
      |(LogLinear.midpoint kPrecision.toNat x.toNat : Int) - x.toNat| := by
    rw [hclamp, Int.abs_eq_natAbs, Int.abs_eq_natAbs]
    omega
  calc |(((feed vs : Accumulator kPrecision).percentile p).toNat : Int) - x.toNat| * 2 ^ (kPrecision.toNat + 1)
      ≤ |(LogLinear.midpoint kPrecision.toNat x.toNat : Int) - x.toNat| * 2 ^ (kPrecision.toNat + 1) :=
        Int.mul_le_mul_of_nonneg_right hnear (by positivity)
    _ ≤ x.toNat := LogLinear.midpoint_error x.toNat

/-- More is asked for, no less is reported. -/
theorem percentile_mono (hne : vs ≠ []) {p p' : Percent} (hp : p.value ≤ Histogram.kRankScale)
    (hp' : p'.value ≤ Histogram.kRankScale) (hpp' : p.value ≤ p'.value) :
    (feed vs : Accumulator kPrecision).percentile p ≤ (feed vs : Accumulator kPrecision).percentile p' := by
  have h0 : (feed vs : Accumulator kPrecision).count ≠ 0 := by
    rw [count_feed, Ne, List.length_eq_zero_iff]
    exact hne
  obtain ⟨hpos, hle⟩ := rank_bounds hlen hne hp
  obtain ⟨hpos', hle'⟩ := rank_bounds hlen hne hp'
  obtain ⟨x, hx⟩ := exists_kthSmallest hpos hle
  obtain ⟨y, hy⟩ := exists_kthSmallest hpos' hle'
  have hxy : x ≤ y := kthSmallest_mono (Histogram.nearestRank_mono hp _ hp' hpp') hx hy
  have hmid : LogLinear.midpoint kPrecision.toNat x.toNat ≤ LogLinear.midpoint kPrecision.toNat y.toNat :=
    LogLinear.midpoint_mono (UInt64.le_iff_toNat_le.mp hxy)
  have hmin := min_feed_le kPrecision vs x (mem_of_kthSmallest hx)
  have hmax := le_max_feed kPrecision vs x (mem_of_kthSmallest hx)
  have hrange := UInt64.le_trans hmin hmax
  rw [UInt64.le_iff_toNat_le, percentile_eq_clamp h0 hrange, percentile_eq_clamp h0 hrange,
    hist_percentile_feed hP hlen hp hx, hist_percentile_feed hP hlen hp' hy, Histogram.bucketMidpoint_indexOf hP,
    Histogram.bucketMidpoint_indexOf hP]
  omega

end samples

/-- Percentiles are the nearest rank, within the stated error. -/
theorem percentile_is_nearest_rank (hP : kPrecision ≤ 26) {vs : List UInt64} (hne : vs ≠ [])
    (hlen : vs.length < 2 ^ 64) {p : Percent} (hp : p.value ≤ Histogram.kRankScale) :
    let a : Accumulator kPrecision := feed vs
    let n := UInt64.ofNat vs.length
    let k := (Histogram.nearestRank p.value n).toNat
    Histogram.NoWrap p.value n ∧ k = Max.max 1 ⌈((p.value.toNat * vs.length : Nat) : Rat) / 10 ^ 9⌉₊ ∧
      1 ≤ k ∧ k ≤ vs.length ∧
      (∃ x, kthSmallest vs k = some x ∧
        a.hist.percentile p = Histogram.bucketMidpoint kPrecision (Histogram.indexOf kPrecision x) ∧
        |((a.percentile p).toNat : Int) - x.toNat| * 2 ^ (kPrecision.toNat + 1) ≤ x.toNat ∧
        (x.toNat < 2 ^ kPrecision.toNat → a.percentile p = x)) ∧
      (a.min ∈ vs ∧ a.max ∈ vs ∧ ∀ v ∈ vs, a.min ≤ v ∧ v ≤ a.max) ∧
      a.min ≤ a.percentile p ∧ a.percentile p ≤ a.max ∧
      ∀ p' : Percent, p'.value ≤ Histogram.kRankScale → p.value ≤ p'.value →
        a.percentile p ≤ a.percentile p' := by
  intro a n k
  have hn : n.toNat = vs.length := length_toNat hlen
  obtain ⟨hpos, hle⟩ := rank_bounds hlen hne hp
  obtain ⟨x, hx⟩ := exists_kthSmallest hpos hle
  have herr := percentile_error hP hlen hp hx
  have h0 : a.count ≠ 0 := by
    rw [count_feed, Ne, List.length_eq_zero_iff]
    exact hne
  have hrange := UInt64.le_trans (min_feed_le kPrecision vs x (mem_of_kthSmallest hx))
    (le_max_feed kPrecision vs x (mem_of_kthSmallest hx))
  have hclamp := percentile_eq_clamp h0 hrange p
  have hrange' : a.min.toNat ≤ a.max.toNat := UInt64.le_iff_toNat_le.mp hrange
  refine ⟨Histogram.noWrap hp n, ?_, hpos, hle, ⟨x, hx, hist_percentile_feed hP hlen hp hx, herr, ?_⟩,
    ⟨min_mem_feed hne, max_mem_feed hne, fun v hv => ⟨min_feed_le _ vs v hv, le_max_feed _ vs v hv⟩⟩, ?_, ?_,
    fun p' hp' hpp' => percentile_mono hP hlen hne hp hp' hpp'⟩
  · have hceil := natCeil_div (p.value.toNat * vs.length) (show 0 < 10 ^ 9 by omega)
    rw [Nat.cast_pow, Nat.cast_ofNat] at hceil
    rw [hceil, ← hn, Nat.mul_comm]
    exact Histogram.nearestRank_toNat hp n
  · intro hsmall
    exact UInt64.toNat_inj.mp (LogLinear.eq_of_error herr hsmall)
  · rw [UInt64.le_iff_toNat_le, hclamp]
    omega
  · rw [UInt64.le_iff_toNat_le, hclamp]
    omega

theorem percentile_of_three :
    ∃ x, kthSmallest [1000, 3, 40] (Histogram.nearestRank 500000000 3).toNat = some x ∧
      |(((feed [1000, 3, 40] : Accumulator 4).percentile (.scaled 500000000)).toNat : Int) - x.toNat| * 2 ^ 5 ≤
        x.toNat := by
  obtain ⟨-, -, -, -, ⟨x, hx, -, herr, -⟩, -⟩ :=
    @percentile_is_nearest_rank 4 (by decide) [1000, 3, 40] (by decide) (by decide) (.scaled 500000000) (by decide)
  exact ⟨x, hx, herr⟩

end Accumulator

end SlickPerfmon
