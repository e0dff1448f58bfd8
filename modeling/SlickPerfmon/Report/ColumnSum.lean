import SlickPerfmon.Pairing.Ledger
import SlickPerfmon.Report.Lemmas.Rows
import SlickPerfmon.Stats.Accumulator
import Mathlib.Algebra.BigOperators.Group.Finset.Basic
import Mathlib.Algebra.Group.Action.Defs
import Mathlib.Algebra.Order.BigOperators.Group.List
import Mathlib.Algebra.Order.Group.Nat

/-!
# The sum of an anomaly column

Over a session of events and flushes, a column of the file adds up to the counter's lifetime total and what the
flushes wrote too often: the new counts of a point stand on each of its stages that has samples in the interval.
-/

namespace SlickPerfmon

open Library

/-! ## Sums over the points -/

/-- A sum over a list, point by point. -/
theorem sum_map_count {κ : Type} [DecidableEq κ] {K L : List κ} (hK : K.Nodup) (f : κ → Nat)
    (h0 : ∀ p, p ∉ K → f p = 0) : (L.map f).sum = (K.map fun p => L.count p * f p).sum := by
  have hL : ∑ p ∈ L.toFinset, L.count p * f p = ∑ p ∈ L.toFinset ∪ K.toFinset, L.count p * f p := by
    refine Finset.sum_subset Finset.subset_union_left fun p _ hp => ?_
    rw [List.count_eq_zero.mpr fun hmem => hp (List.mem_toFinset.mpr hmem), Nat.zero_mul]
  have hK' : ∑ p ∈ K.toFinset, L.count p * f p = ∑ p ∈ L.toFinset ∪ K.toFinset, L.count p * f p := by
    refine Finset.sum_subset Finset.subset_union_right fun p _ hp => ?_
    rw [h0 p fun hmem => hp (List.mem_toFinset.mpr hmem), Nat.mul_zero]
  rw [Finset.sum_list_map_count, ← List.sum_toFinset _ hK, hK', ← hL]
  simp only [smul_eq_mul]

/-- Summing over more points than have a value. -/
theorem sum_map_superset {κ : Type} [DecidableEq κ] {K L : List κ} (hK : K.Nodup) (hL : L.Nodup)
    (hsub : ∀ p ∈ K, p ∈ L) (f : κ → Nat) (h0 : ∀ p, p ∉ K → f p = 0) : (L.map f).sum = (K.map f).sum := by
  rw [sum_map_count hK f h0]
  congr 1
  refine List.map_congr_left fun p hp => ?_
  rw [List.count_eq_one_of_mem hL (hsub p hp), Nat.one_mul]

namespace Reporter

variable {A F : Type}

theorem mem_pointList {P : Pairer A} (h : P.PointsKept) {p : UInt32} :
    p ∈ pointList P ↔ ∃ a, P.points.find p.toUInt64 = some a := by
  constructor
  · intro hmem
    obtain ⟨e, he, rfl⟩ := List.mem_map.mp hmem
    have hf := (OpenMap.find_eq_some h.wf).mpr he
    exact ⟨e.2, by rw [← h.keyed e.1 e.2 hf]; exact hf⟩
  · rintro ⟨a, ha⟩
    have hmem := List.mem_map_of_mem (f := fun e : UInt64 × PointAnomalies => e.1.toUInt32)
      ((OpenMap.find_eq_some h.wf).mp ha)
    simp only [UInt32.toUInt32_toUInt64] at hmem
    exact hmem

theorem anomaliesOf_of_notMem {P : Pairer A} (h : P.PointsKept) {p : UInt32} (hp : p ∉ pointList P) :
    P.anomaliesOf p = {} := by
  cases hf : P.points.find p.toUInt64 with
  | none => rw [Pairer.anomaliesOf, hf]; rfl
  | some a => exact absurd ((mem_pointList h).mpr ⟨a, hf⟩) hp

theorem tally_eq {P : Pairer A} (h : P.PointsKept) (c : Counter) :
    P.tally (·.get c) = ((pointList P).map fun p => (P.anomaliesOf p).get c).sum + P.overflow.get c := by
  unfold Pairer.tally pointList
  rw [List.map_map]
  congr 2
  refine List.map_congr_left fun e he => ?_
  have hf := (OpenMap.find_eq_some h.wf).mpr he
  simp only [Function.comp, Pairer.anomaliesOf, ← h.keyed e.1 e.2 hf, hf]
  rfl

/-! ## Between two flushes -/

/-- A column of the file. -/
def column (c : Counter) (csv : List (CsvRow F)) : Nat := (csv.map fun r => r.stats.get c).sum

/-- What stands between two flushes: the baselines are the counters as the last flush, at `Q`, left them, and the
file holds their sum and an excess. -/
structure Settled (cfg : Config) (c : Counter) (Q : Pairer A) (excess : Nat) (st : Reporter A F) : Prop where
  balanced : ∃ L, Balanced cfg st.pairer L
  kept : Q.PointsKept
  grows : Q.Grows st.pairer
  rowPoints : st.rowPoints.WF ∧ st.rowPoints.maxEntries = st.pairer.stages.maxEntries
  baseline : BaselineFits Q st.pointBaseline
  base : ∀ p, baselineOf st.pointBaseline p = Q.anomaliesOf p
  overflow : st.overflowBaseline = Q.overflow
  column : column c st.csv = Q.tally (·.get c) + excess

namespace Settled

variable {cfg : Config} {c : Counter} {Q : Pairer A} {excess : Nat} {st : Reporter A F}

/-- An event, a sweep or the end of a session between two flushes. -/
theorem pairer (h : Settled cfg c Q excess st) {st' : Reporter A F}
    (hbal : ∃ L, Balanced cfg st'.pairer L) (hgrows : st.pairer.Grows st'.pairer)
    (hsame : st'.rowPoints = st.rowPoints ∧ st'.pointBaseline = st.pointBaseline ∧
      st'.overflowBaseline = st.overflowBaseline ∧ st'.csv = st.csv) : Settled cfg c Q excess st' := by
  obtain ⟨hrp, hb, ho, hcsv⟩ := hsame
  exact
    { balanced := hbal
      kept := h.kept
      grows := h.grows.trans hgrows
      rowPoints := by rw [hrp, hgrows.stages]; exact h.rowPoints
      baseline := by rw [hb]; exact h.baseline
      base := by rw [hb]; exact h.base
      overflow := by rw [ho]; exact h.overflow
      column := by rw [hcsv]; exact h.column }

theorem swept (h : Settled cfg c Q excess st) (f : FlushInput) : Settled cfg c Q excess (st.swept f) := by
  obtain ⟨L, hL⟩ := h.balanced
  cases hs : f.sweep with
  | none =>
      refine h.pairer ⟨L, ?_⟩ ?_ ⟨rfl, rfl, rfl, rfl⟩
      · simp only [Reporter.swept, hs]; exact hL
      · simp only [Reporter.swept, hs]; exact .refl _
  | some x =>
      refine h.pairer ⟨L, ?_⟩ ?_ ⟨rfl, rfl, rfl, rfl⟩
      · simp only [Reporter.swept, hs]; exact hL.sweep x.1 x.2
      · simp only [Reporter.swept, hs]; exact Pairer.grows_sweep hL.wf.spans x.1 x.2

theorem grown (h : Settled cfg c Q excess st) (p : UInt32) : (Q.anomaliesOf p).Le (st.pairer.anomaliesOf p) := by
  cases hf : Q.points.find p.toUInt64 with
  | none =>
      have h0 : Q.anomaliesOf p = {} := by rw [Pairer.anomaliesOf, hf]; rfl
      rw [h0]
      exact PointAnomalies.zero_le _
  | some a =>
      obtain ⟨a', ha', hle⟩ := h.grows.points h.kept _ a hf
      rw [Pairer.anomaliesOf, hf, Pairer.anomaliesOf, ha']
      exact hle

theorem ready (h : Settled cfg c Q excess st) : FlushReady st where
  stages := h.balanced.elim fun _ hL => hL.wf.stages
  kept := h.grows.kept h.kept
  rowPoints := h.rowPoints
  baseline :=
    { wf := h.baseline.wf
      max := h.baseline.max.trans h.grows.max.symm
      keyed := fun k v hk => by
        obtain ⟨a, ha⟩ := h.baseline.keyed k v hk
        obtain ⟨a', ha', -⟩ := h.grows.points h.kept k a ha
        exact ⟨a', ha'⟩ }
  grown p := by rw [h.base]; exact h.grown p

/-- The lifetime total is what the last flush saw and what is new since. -/
theorem tally_eq_add (h : Settled cfg c Q excess st) :
    st.pairer.tally (·.get c) = Q.tally (·.get c) +
      ((pointList st.pairer).map fun p => (st.newAnomalies p).get c).sum +
      (st.pairer.overflow.since st.overflowBaseline).get c := by
  have hkept := h.grows.kept h.kept
  have hold : ((pointList st.pairer).map fun p => (Q.anomaliesOf p).get c).sum =
      ((pointList Q).map fun p => (Q.anomaliesOf p).get c).sum := by
    refine sum_map_superset (pointList_nodup h.kept) (pointList_nodup hkept) (fun p hp => ?_) _ fun p hp => ?_
    · obtain ⟨a, ha⟩ := (mem_pointList h.kept).mp hp
      obtain ⟨a', ha', -⟩ := h.grows.points h.kept _ a ha
      exact (mem_pointList hkept).mpr ⟨a', ha'⟩
    · rw [anomaliesOf_of_notMem h.kept hp]
      cases c <;> rfl
  have hnew : ((pointList st.pairer).map fun p => (st.pairer.anomaliesOf p).get c).sum =
      ((pointList st.pairer).map fun p => (Q.anomaliesOf p).get c).sum +
        ((pointList st.pairer).map fun p => (st.newAnomalies p).get c).sum := by
    rw [← List.sum_map_add]
    congr 1
    refine List.map_congr_left fun p _ => ?_
    have := h.grown p c
    rw [newAnomalies, PointAnomalies.get_since, h.base]
    omega
  have hover := h.grows.overflow c
  rw [tally_eq hkept, tally_eq h.kept, hnew, hold, PointAnomalies.get_since, h.overflow]
  omega

end Settled

/-! ## One flush -/

theorem newAnomalies_of_notMem {st : Reporter A F} (h : st.pairer.PointsKept) (c : Counter) {p : UInt32}
    (hp : p ∉ pointList st.pairer) : (st.newAnomalies p).get c = 0 := by
  rw [newAnomalies, PointAnomalies.get_since, anomaliesOf_of_notMem h hp]
  cases c <;> exact Nat.zero_sub _

variable [Accum A]

/-- Every point with something new in this counter has samples in one of its stages at most. -/
def OneStage (c : Counter) (st : Reporter A F) : Prop :=
  ∀ p, (st.newAnomalies p).get c ≠ 0 → sampledIn st.pairer.stages.entries p ≤ 1

/-- What the rows of a flush repeat. -/
def repeated (c : Counter) (st : Reporter A F) : Nat :=
  ((pointList st.pairer).map fun p =>
    (sampledIn st.pairer.stages.entries p - 1) * (st.newAnomalies p).get c).sum

theorem sampledIn_le_length (es : List (UInt64 × Stage A)) (p : UInt32) : sampledIn es p ≤ es.length := by
  unfold sampledIn
  refine List.count_le_length.trans ?_
  rw [List.length_map]
  exact List.length_filter_le _ _

theorem repeated_eq_zero {st : Reporter A F} (h : st.pairer.PointsKept) (c : Counter) :
    repeated c st = 0 ↔ OneStage c st := by
  unfold repeated
  rw [List.sum_eq_zero_iff]
  constructor
  · intro hall p hne
    by_cases hp : p ∈ pointList st.pairer
    · have h0 := hall _ (List.mem_map.mpr ⟨p, hp, rfl⟩)
      rcases Nat.mul_eq_zero.mp h0 with h0 | h0
      · omega
      · exact absurd h0 hne
    · exact absurd (newAnomalies_of_notMem h c hp) hne
  · intro hone x hx
    obtain ⟨p, -, rfl⟩ := List.mem_map.mp hx
    by_cases h0 : (st.newAnomalies p).get c = 0
    · rw [h0, Nat.mul_zero]
    · have := hone p h0
      rw [Nat.sub_eq_zero_of_le this, Nat.zero_mul]

/-- The first two passes write what is new, once for a point without samples and once a stage for another. -/
theorem passes_sum {st : Reporter A F} (h : st.pairer.PointsKept) (c : Counter) :
    (st.pairer.stages.entries.map fun e =>
      if Accum.count e.2.interval ≠ 0 then (st.newAnomalies e.2.point).get c else 0).sum +
    ((pointList st.pairer).map fun p =>
      if sampledIn st.pairer.stages.entries p = 0 then (st.newAnomalies p).get c else 0).sum =
    ((pointList st.pairer).map fun p => (st.newAnomalies p).get c).sum + repeated c st := by
  have hstages : (st.pairer.stages.entries.map fun e =>
      if Accum.count e.2.interval ≠ 0 then (st.newAnomalies e.2.point).get c else 0).sum =
      (((st.pairer.stages.entries.filter fun e => Accum.count e.2.interval != 0).map fun e => e.2.point).map
        fun p => (st.newAnomalies p).get c).sum := by
    rw [List.map_map]
    induction st.pairer.stages.entries with
    | nil => rfl
    | cons e es ih =>
        by_cases h0 : Accum.count e.2.interval = 0
        · simpa [h0] using ih
        · simpa [h0] using ih
  rw [hstages, sum_map_count (pointList_nodup h) _ fun p hp => newAnomalies_of_notMem h c hp, repeated,
    ← List.sum_map_add, ← List.sum_map_add]
  congr 1
  refine List.map_congr_left fun p _ => ?_
  change sampledIn st.pairer.stages.entries p * _ + _ = _
  cases sampledIn st.pairer.stages.entries p with
  | zero => simp
  | succ n => simp [Nat.succ_mul, Nat.add_comm]

variable (env : ReportEnv A F)

/-- The rows of the file are the written ones, and where there is none one that counts nothing. -/
theorem column_writeCsv (hopen : env.csvOpen = true) (c : Counter) (st : Reporter A F) (newLosses newStalled : Nat)
    (rows : List (StageReport F)) :
    column c (st.writeCsv env newLosses newStalled rows).csv = column c st.csv + columnOf c rows := by
  have hfilter : column c ((rows.filter written).map csvRow) = columnOf c rows := by
    induction rows with
    | nil => rfl
    | cons r rows ih =>
        simp only [column, columnOf, List.map_cons, List.sum_cons, weight] at ih ⊢
        rw [← ih]
        cases hw : written r with
        | true => simp [hw, csvRow]
        | false => simp [hw]
  have halone : ∀ b : Bool, column c (if b then [collectorRow env newLosses newStalled] else []) = 0 := by
    intro b
    cases b
    · rfl
    · cases c <;> rfl
  have happ : ∀ a b : List (CsvRow F), column c (a ++ b) = column c a + column c b := by
    intro a b
    simp [column]
  simp only [writeCsv, hopen, if_true, happ, hfilter, halone, Nat.add_zero]

theorem column_doFlush (hopen : env.csvOpen = true) (c : Counter) (st : Reporter A F) (f : FlushInput)
    {newLosses newStalled : Nat} (hn : newLosses = if f.loss > st.lastLoss then f.loss - st.lastLoss else 0)
    (hs : newStalled = f.stalledSlots - st.reportedStalled) :
    column c (st.doFlush env f).csv = column c st.csv +
      columnOf c ((st.swept f).built env newLosses newStalled (st.swept f).buildRows).rows := by
  have hsorted := columnOf_perm (c := c) (List.mergeSort_perm
    ((st.swept f).built env newLosses newStalled (st.swept f).buildRows).rows fun a b => !rowBefore b a)
  have hwrite := column_writeCsv env hopen c ((st.swept f).buildReports env newLosses newStalled) newLosses
    newStalled ((st.swept f).buildReports env newLosses newStalled).buildRows
  subst hn hs
  exact hwrite.trans (congrArg _ hsorted)

theorem doFlush_pairer (st : Reporter A F) (f : FlushInput) :
    (st.doFlush env f).pairer =
      ({ (st.swept f).pairer with stages := (st.swept f).pairer.stages.forEach fun _ => merged }).clearIntervals := by
  simp only [doFlush, writeCsv]
  split <;> rfl

/-- The published rows are those that were built, in another order. -/
theorem doFlush_reports (st : Reporter A F) (f : FlushInput) :
    (st.doFlush env f).reports.Perm ((st.swept f).built env (if f.loss > st.lastLoss then f.loss - st.lastLoss else 0)
      (f.stalledSlots - st.reportedStalled) st.buildRows).rows := by
  have hreports : (st.doFlush env f).reports =
      ((st.swept f).buildReports env (if f.loss > st.lastLoss then f.loss - st.lastLoss else 0)
        (f.stalledSlots - st.reportedStalled)).buildRows := by
    simp only [doFlush, writeCsv]
    split <;> rfl
  rw [hreports]
  exact List.mergeSort_perm _ _

/-- A flush settles everything new, and writes what it repeats on top. -/
theorem Settled.flush (hopen : env.csvOpen = true) {cfg : Config} {c : Counter} {Q : Pairer A} {excess : Nat}
    {st : Reporter A F} (h : Settled cfg c Q excess st) (f : FlushInput) :
    Settled cfg c (st.doFlush env f).pairer (excess + repeated c (st.swept f)) (st.doFlush env f) := by
  have hsw := h.swept f
  set sw := st.swept f with hswdef
  obtain ⟨L, hL⟩ := hsw.balanced
  have hkept := hsw.grows.kept hsw.kept
  set newLosses := if f.loss > st.lastLoss then f.loss - st.lastLoss else 0 with hn
  set newStalled := f.stalledSlots - st.reportedStalled with hs
  have hb := hsw.ready.built env newLosses newStalled c
  set b := sw.built env newLosses newStalled sw.buildRows with hbdef
  have hout : ∀ rows, ((sw.buildReports env newLosses newStalled).writeCsv env newLosses newStalled rows).pairer =
      (sw.buildReports env newLosses newStalled).pairer ∧
      ((sw.buildReports env newLosses newStalled).writeCsv env newLosses newStalled rows).rowPoints = b.rowPoints ∧
      ((sw.buildReports env newLosses newStalled).writeCsv env newLosses newStalled rows).pointBaseline =
        b.baseline ∧
      ((sw.buildReports env newLosses newStalled).writeCsv env newLosses newStalled rows).overflowBaseline =
        sw.pairer.overflow := by
    intro rows
    unfold writeCsv
    rw [if_pos hopen]
    exact ⟨rfl, rfl, rfl, rfl⟩
  obtain ⟨hp, hrp, hbl, ho⟩ := hout (sw.buildReports env newLosses newStalled).buildRows
  have hpairer : (st.doFlush env f).pairer = (sw.buildReports env newLosses newStalled).pairer.clearIntervals :=
    congrArg Pairer.clearIntervals hp
  -- the counters are those the rows were built from
  have hpoints : (st.doFlush env f).pairer.points = sw.pairer.points := by rw [hpairer]; rfl
  have hoverflow : (st.doFlush env f).pairer.overflow = sw.pairer.overflow := by rw [hpairer]; rfl
  have hstages : (st.doFlush env f).pairer.stages.maxEntries = sw.pairer.stages.maxEntries := by rw [hpairer]; rfl
  have hkeptOut : (st.doFlush env f).pairer.PointsKept :=
    ⟨by rw [hpoints]; exact hkept.wf, by rw [hpoints]; exact hkept.keyed⟩
  refine
    { balanced := ⟨L, ?_⟩
      kept := hkeptOut
      grows := .refl _
      rowPoints := ?_
      baseline := ?_
      base := fun p => ?_
      overflow := ?_
      column := ?_ }
  · rw [hpairer]
    have hmerge : Balanced cfg (sw.buildReports env newLosses newStalled).pairer L :=
      hL.rewriteStages fun _ => ⟨rfl, rfl, rfl⟩
    exact hmerge.clearIntervals
  · rw [show (st.doFlush env f).rowPoints = b.rowPoints from hrp, hstages]
    exact ⟨hb.rowPoints.1, hb.rowPoints.2.trans hsw.rowPoints.2⟩
  · rw [show (st.doFlush env f).pointBaseline = b.baseline from hbl]
    exact ⟨hb.baseline.wf, by rw [hpoints]; exact hb.baseline.max, by rw [hpoints]; exact hb.baseline.keyed⟩
  · rw [show (st.doFlush env f).pointBaseline = b.baseline from hbl, hb.moved, Pairer.anomaliesOf, Pairer.anomaliesOf, hpoints]
  · rw [show (st.doFlush env f).overflowBaseline = sw.pairer.overflow from ho, hoverflow]
  · have htally : (st.doFlush env f).pairer.tally (·.get c) = sw.pairer.tally (·.get c) := by
      rw [Pairer.tally, hpoints, hoverflow]; rfl
    have hcsv : Reporter.column c sw.csv = Reporter.column c st.csv := rfl
    rw [htally, hsw.tally_eq_add, column_doFlush env hopen c st f hn hs, ← hcsv, hsw.column, hb.column,
      passes_sum hkept]
    omega

/-! ## Sessions -/

variable (H : HeapLib)

/-- At every flush of a session the state it builds its rows from satisfies `R`. -/
def EveryFlush (R : Reporter A F → Prop) : Reporter A F → List SessionStep → Prop
  | _, [] => True
  | st, s :: rest =>
      (match s with
        | .flush f => R (st.swept f)
        | _ => True) ∧ EveryFlush R (st.step H env s) rest

theorem everyFlush_append (R : Reporter A F → Prop) (st : Reporter A F) (steps rest : List SessionStep) :
    EveryFlush env H R st (steps ++ rest) ↔
      EveryFlush env H R st steps ∧ EveryFlush env H R (st.run H env steps) rest := by
  induction steps generalizing st with
  | nil => exact ⟨fun h => ⟨trivial, h⟩, fun h => h.2⟩
  | cons s steps ih =>
      simp only [List.cons_append, EveryFlush, ih, and_assoc]
      rfl

/-- The state after the last flush of the steps, `prev` if there is none. -/
def lastFlush (prev : Reporter A F) : Reporter A F → List SessionStep → Reporter A F
  | _, [] => prev
  | st, .flush f :: rest => lastFlush (st.doFlush env f) (st.doFlush env f) rest
  | st, s :: rest => lastFlush prev (st.step H env s) rest

/-- What a step repeats on top of what is new. -/
def repeatedAt (c : Counter) (st : Reporter A F) : SessionStep → Nat
  | .flush f => repeated c (st.swept f)
  | _ => 0

theorem Settled.step (hopen : env.csvOpen = true) {cfg : Config} {c : Counter} {prev : Reporter A F} {excess : Nat}
    {st : Reporter A F} (h : Settled cfg c prev.pairer excess st) (s : SessionStep) :
    Settled cfg c (lastFlush env H prev st [s]).pairer (excess + repeatedAt c st s) (st.step H env s) ∧
      (excess + repeatedAt c st s = 0 ↔ excess = 0 ∧ EveryFlush env H (OneStage c) st [s]) := by
  obtain ⟨L, hL⟩ := h.balanced
  cases s with
  | event e =>
      refine ⟨h.pairer ⟨_, (hL.event H e).1⟩ (Pairer.grows_onEvent H st.pairer e) ⟨rfl, rfl, rfl, rfl⟩, ?_⟩
      simp [EveryFlush, repeatedAt]
  | flush f =>
      refine ⟨h.flush env hopen f, ?_⟩
      have hrep := repeated_eq_zero ((h.swept f).grows.kept h.kept) c
      simp only [EveryFlush, and_true, ← hrep, repeatedAt]
      omega
  | abandonAll =>
      refine ⟨h.pairer ⟨L, hL.abandonAll⟩ (Pairer.grows_abandonAll st.pairer) ⟨rfl, rfl, rfl, rfl⟩, ?_⟩
      simp [EveryFlush, repeatedAt]

theorem lastFlush_cons (prev st : Reporter A F) (s : SessionStep) (rest : List SessionStep) :
    lastFlush env H prev st (s :: rest) = lastFlush env H (lastFlush env H prev st [s]) (st.step H env s) rest := by
  cases s <;> rfl

theorem Settled.run (hopen : env.csvOpen = true) {cfg : Config} {c : Counter} (steps : List SessionStep)
    {prev : Reporter A F} {excess : Nat} {st : Reporter A F} (h : Settled cfg c prev.pairer excess st) :
    ∃ excess', Settled cfg c (lastFlush env H prev st steps).pairer excess' (st.run H env steps) ∧
      (excess' = 0 ↔ excess = 0 ∧ EveryFlush env H (OneStage c) st steps) := by
  induction steps generalizing prev excess st with
  | nil => exact ⟨excess, h, by simp [EveryFlush]⟩
  | cons s steps ih =>
      obtain ⟨h₁, hx₁⟩ := h.step env H hopen s
      obtain ⟨x₂, h₂, hx₂⟩ := ih h₁
      rw [← lastFlush_cons] at h₂
      refine ⟨x₂, h₂, ?_⟩
      have happ := everyFlush_append env H (OneStage c) st [s] steps
      rw [List.singleton_append] at happ
      rw [hx₂, hx₁, happ, and_assoc]
      rfl

omit [Accum A] in
theorem settled_reset (cfg : Config) (overheadCycles : UInt64) (reports : List (StageReport F)) (c : Counter) :
    Settled cfg c (reset cfg overheadCycles reports : Reporter A F).pairer 0
      (reset cfg overheadCycles reports : Reporter A F) where
  balanced := ⟨{}, by
    have h := balanced_reset (A := A) cfg
    exact ⟨⟨h.wf.spans, h.wf.stages, h.wf.points, h.wf.batch⟩, h.keyed, h.max, h.begins, h.moves⟩⟩
  kept := ⟨OpenMap.wf_reset _, fun k a hk => by
    rw [show (reset cfg overheadCycles reports : Reporter A F).pairer.points.find k = none from
      OpenMap.find_reset _ _] at hk
    cases hk⟩
  grows := .refl _
  rowPoints := ⟨OpenMap.wf_reset _, rfl⟩
  baseline := ⟨OpenMap.wf_reset _, rfl, fun k v hk => by
    rw [show (reset cfg overheadCycles reports : Reporter A F).pointBaseline.find k = none from
      OpenMap.find_reset _ _] at hk
    cases hk⟩
  base p := by
    rw [baselineOf, Pairer.anomaliesOf,
      show (reset cfg overheadCycles reports : Reporter A F).pointBaseline.find p.toUInt64 = none from
        OpenMap.find_reset _ _,
      show (reset cfg overheadCycles reports : Reporter A F).pairer.points.find p.toUInt64 = none from
        OpenMap.find_reset _ _]
  overflow := rfl
  column := by
    have hent : (reset cfg overheadCycles reports : Reporter A F).pairer.points.entries = [] :=
      OpenMap.entries_reset _
    rw [Pairer.tally, hent]
    cases c <;> rfl

/-- A session whose file is open, up to the end of a flush: an anomaly column sums to the lifetime value of its
counter exactly when at every flush each point with something new in it has samples in at most one stage. -/
theorem csv_column_sum (hopen : env.csvOpen = true) (cfg : Config) (overheadCycles : UInt64)
    (reports : List (StageReport F)) (steps : List SessionStep) (f : FlushInput) (c : Counter) :
    let st : Reporter A F := reset cfg overheadCycles reports
    let last := st.run H env (steps ++ [.flush f])
    column c last.csv = last.pairer.tally (·.get c) ↔
      EveryFlush env H (OneStage c) st (steps ++ [.flush f]) := by
  intro st last
  obtain ⟨excess, h, hx⟩ := (settled_reset cfg overheadCycles reports c).run env H hopen steps
  have hlast : last = (st.run H env steps).doFlush env f := by
    change (steps ++ [SessionStep.flush f]).foldl (step H env) st = _
    rw [List.foldl_append]
    rfl
  have hflush := (h.flush env hopen f).column
  have hrep := repeated_eq_zero ((h.swept f).grows.kept h.kept) c
  have hone : EveryFlush env H (OneStage c) (st.run H env steps) [.flush f] ↔
      repeated c ((st.run H env steps).swept f) = 0 := by
    simp only [EveryFlush, and_true]
    exact hrep.symm
  rw [everyFlush_append, hone, hlast, hflush]
  constructor
  · intro heq
    have hzero := Nat.add_eq_zero_iff.mp (Nat.left_eq_add.mp heq.symm)
    exact ⟨(hx.mp hzero.1).2, hzero.2⟩
  · rintro ⟨hsteps, hzero⟩
    rw [hx.mpr ⟨rfl, hsteps⟩, hzero]
    rfl

/-- A session's settings with a file, default labels and no figures. -/
def plainEnv : ReportEnv (Accumulator 4) Unit := ⟨fun _ _ => "", fun _ _ => (), fun _ _ _ => (), true⟩

/-- A span with one stage and a stray end, a flush, and one more stray end. -/
def strayEnds : List SessionStep :=
  [.event ⟨10, 1, makeEvent kBeginStep 5⟩, .event ⟨20, 1, makeEvent kEndStep 5⟩,
    .event ⟨21, 1, makeEvent kEndStep 6⟩, .flush ⟨none, 0, 0⟩, .event ⟨30, 1, makeEvent kEndStep 5⟩]

theorem csv_column_sum_strayEnds :
    let last := (reset ⟨2, 4⟩ 0 [] : Reporter (Accumulator 4) Unit).run sortingLib plainEnv
      (strayEnds ++ [.flush ⟨none, 0, 0⟩])
    column .orphan last.csv = last.pairer.tally (·.get .orphan) ∧ last.pairer.tally (·.get .orphan) = 2 := by
  refine ⟨(csv_column_sum plainEnv sortingLib rfl ⟨2, 4⟩ 0 [] strayEnds ⟨none, 0, 0⟩ .orphan).mpr
    ⟨trivial, trivial, trivial, fun p _ => (sampledIn_le_length _ p).trans ?_, trivial,
      fun p _ => (sampledIn_le_length _ p).trans ?_, trivial⟩, ?_⟩
  · decide
  · decide
  · decide

/-- A span with two transitions and a stray end of the same point, in one interval. -/
def strayEndAmongStages : List SessionStep :=
  [.event ⟨10, 1, makeEvent kBeginStep 5⟩, .event ⟨15, 1, makeEvent 3 5⟩, .event ⟨20, 1, makeEvent kEndStep 5⟩,
    .event ⟨21, 1, makeEvent kEndStep 6⟩]

/-- One orphan, and the column says three: the point has three stages with samples. -/
theorem column_counts_an_orphan_per_stage :
    let last := (reset ⟨2, 4⟩ 0 [] : Reporter (Accumulator 4) Unit).run sortingLib plainEnv
      (strayEndAmongStages ++ [.flush ⟨none, 0, 0⟩])
    column .orphan last.csv = 3 ∧ last.pairer.tally (·.get .orphan) = 1 := by
  refine ⟨(column_doFlush plainEnv rfl .orphan _ _ rfl rfl).trans ?_, ?_⟩
  · decide
  · decide

end Reporter

end SlickPerfmon
