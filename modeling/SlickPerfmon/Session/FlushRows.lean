import SlickPerfmon.Report.CompleteRows
import SlickPerfmon.Report.SpanStages
import SlickPerfmon.Session.Restart

/-!
# What a flush of a Collector publishes

The rows of a flush are those the reports are built of, under their labels and in the order of the report; `snapshot`
answers with the row of its key. Of a pairer that was given complete spans and nothing else, they tell what the spans
are charged.
-/

namespace SlickPerfmon

open Library

variable {A F : Type}

/-- A row but for its labels and the mark that exempts it from the filter of the file. -/
def StageReport.bare (r : StageReport F) : StageReport F :=
  { r with pointName := "", stageName := "", anomaliesOnly := false }

/-! ## Labels -/

namespace LabelCaches

variable (env : ReportEnv A F) (caches : LabelCaches)

theorem labelRow_bare (r : StageReport F) : (caches.labelRow env r).2.bare = r.bare := by
  unfold labelRow
  split
  · rfl
  · rfl

theorem labelRows_bare (rows : List (StageReport F)) :
    (labelRows env rows caches).2.map StageReport.bare = rows.map StageReport.bare := by
  induction rows generalizing caches with
  | nil => rfl
  | cons r rows ih =>
      have hrow := caches.labelRow_bare env r
      have hrest := ih (caches.labelRow env r).1
      rw [labelRows, List.map_cons, List.map_cons, hrow, hrest]

end LabelCaches

/-! ## A flush -/

namespace Collector

variable [Accum A] (c : Collector A F) (o : FlushOutside A F)

/-- What a flush of the Collector finds. -/
def flushInput : Reporter.FlushInput := ⟨o.sweep, o.loss + c.merger.ringLost, c.merger.stalledSlots⟩

/-- What it builds its rows from. -/
def swept : Reporter A F := c.reporter.swept (c.flushInput o)

/-- The counters of an interval. -/
def newLosses : Nat :=
  if o.loss + c.merger.ringLost > c.lastLoss then o.loss + c.merger.ringLost - c.lastLoss else 0

def newStalled : Nat := c.merger.stalledSlots - c.reportedStalled

theorem doFlush_reports :
    ((c.doFlush o).reports.map StageReport.bare).Perm
      (((c.swept o).built o.env (c.newLosses o) c.newStalled c.buildRows).rows.map StageReport.bare) := by
  have hlabels := (c.labels.refreshNameCache o.generation).labelRows_bare o.env
    ((c.swept o).built o.env (c.newLosses o) c.newStalled c.buildRows).rows
  rw [← hlabels]
  exact (List.mergeSort_perm _ _).map _

/-- The rows, but for their labels and marks and their order. -/
theorem reports_bare (hready : Reporter.FlushReady (c.swept o)) :
    ((c.doFlush o).reports.map StageReport.bare).Perm
      (((c.swept o).wantedRows o.env (c.newLosses o) c.newStalled).map StageReport.bare) := by
  have hrows := congrArg (List.map StageReport.bare)
    (hready.rows_unmarked c.buildRows : (_ : List (StageReport F)) =
      (c.swept o).wantedRows o.env (c.newLosses o) c.newStalled)
  rw [List.map_map] at hrows
  rw [← hrows]
  exact c.doFlush_reports o

/-- The intervals are those a reporter reports. -/
theorem reportedOf_doFlush (key : UInt64) :
    Reporter.reportedOf key (c.doFlush o).reports =
      Reporter.reportedOf key (c.reporter.doFlush { o.env with csvOpen := true } (c.flushInput o)).reports := by
  have hbare : ∀ rows : List (StageReport F),
      Reporter.reportedOf key (rows.map StageReport.bare) = Reporter.reportedOf key rows := fun rows => by
    rw [Reporter.reportedOf, List.map_map]
    rfl
  have hrows : Reporter.reportedOf key ((c.doFlush o).reports.map StageReport.bare) = _ :=
    Reporter.reportedOf_perm (c.doFlush_reports o)
  rw [hbare, hbare] at hrows
  exact hrows.trans
    (Reporter.reportedOf_perm (Reporter.doFlush_reports { o.env with csvOpen := true } c.reporter (c.flushInput o))).symm

/-- The labels aside, the other members are what the flush of a reporter leaves. -/
theorem doFlush_reporter :
    ∃ csv buildRows reports, (c.doFlush o).reporter =
      { c.reporter.doFlush { o.env with csvOpen := true } (c.flushInput o) with
        csv := csv, buildRows := buildRows, reports := reports } :=
  ⟨_, _, _, rfl⟩

/-- The baselines are the counters as the last flush left them. -/
def Settled (cfg : Config) (c : Collector A F) : Prop :=
  ∃ Q excess csv, Reporter.Settled cfg .invalid Q excess { c.reporter with csv := csv }

variable {c o} {cfg : Config}

omit [Accum A] in
theorem Settled.start (c : Collector A F) {i : StartInput} (hmode : i.mode ≠ .sharedProducer) :
    (c.start i).Settled i.tables := by
  have hreset := Reporter.settled_reset (A := A) (F := F) i.tables (if i.subtractOverhead then i.overhead else 0) []
    .invalid
  have hpairer : (c.start i).merger.pairer =
      (Pairer.reset i.tables).setOverhead (if i.subtractOverhead then i.overhead else 0) := by
    simp only [Collector.start, if_neg hmode, beginRun]
    cases i.subtractOverhead with
    | false => rfl
    | true => rfl
  have hsame : (c.start i).rowPoints = OpenMap.reset i.tables.maxStages ∧
      (c.start i).pointBaseline = OpenMap.reset i.tables.maxStages ∧ (c.start i).overflowBaseline = {} := by
    rw [Collector.start, if_neg hmode]
    exact ⟨rfl, rfl, rfl⟩
  have hbal : ∃ L, Balanced i.tables (c.start i).merger.pairer L := by
    rw [hpairer]
    exact hreset.balanced
  have hgrows : (Reporter.reset (F := F) i.tables (if i.subtractOverhead then i.overhead else 0) []).pairer.Grows
      (c.start i).merger.pairer := by
    rw [hpairer]
    exact hreset.grows
  exact ⟨_, 0, [], hreset.pairer hbal hgrows ⟨hsame.1, hsame.2.1, hsame.2.2, rfl⟩⟩

omit [Accum A] in
/-- Events, and what else is done to the pairer between two flushes. -/
theorem Settled.setMerger (h : c.Settled cfg) {m : Merger A} (hbal : ∃ L, Balanced cfg m.pairer L)
    (hgrows : c.merger.pairer.Grows m.pairer) : Collector.Settled cfg { c with merger := m } := by
  obtain ⟨Q, excess, csv, hs⟩ := h
  exact ⟨Q, excess, csv, hs.balanced.elim fun _ _ => hbal, hs.kept, hs.grows.trans hgrows,
    by rw [show (({ c with merger := m } : Collector A F).reporter.pairer.stages.maxEntries) =
      c.merger.pairer.stages.maxEntries from hgrows.stages]; exact hs.rowPoints, hs.baseline, hs.base, hs.overflow,
    hs.column⟩

theorem Settled.flush (h : c.Settled cfg) (o : FlushOutside A F) : (c.doFlush o).Settled cfg := by
  obtain ⟨Q, excess, csv, hs⟩ := h
  obtain ⟨csv', buildRows, reports, hrep⟩ := c.doFlush_reporter o
  have hflush := hs.flush { o.env with csvOpen := true } rfl (c.flushInput o)
  refine ⟨_, _, (({ c.reporter with csv := csv } : Reporter A F).doFlush { o.env with csvOpen := true }
    (c.flushInput o)).csv, hflush.balanced, hflush.kept, hflush.grows, ?_, ?_, ?_, ?_, hflush.column⟩
  · exact hflush.rowPoints
  · exact hflush.baseline
  · exact hflush.base
  · exact hflush.overflow

omit [Accum A] in
theorem Settled.ready (h : c.Settled cfg) (o : FlushOutside A F) : Reporter.FlushReady (c.swept o) := by
  obtain ⟨Q, excess, csv, hs⟩ := h
  have hr := (hs.swept (c.flushInput o)).ready
  exact ⟨hr.stages, hr.kept, hr.rowPoints, hr.baseline, hr.grown⟩

/-! ## `snapshot` -/

omit [Accum A] in
theorem snapshot_of_row [Inhabited F] (hnodup : (c.reports.map Reporter.key).Nodup) {r : StageReport F}
    (hr : r ∈ c.reports) {p : UInt32} {f t : UInt8} (hkey : Reporter.key r = ⟨false, p, f, t⟩) :
    c.snapshot p f t = r.cumulative := by
  unfold snapshot
  cases hfind : c.reports.find? fun r => !r.overflow && r.point == p && r.fromStep == f && r.toStep == t with
  | none =>
      have hnone := List.find?_eq_none.mp hfind r hr
      obtain ⟨ho, hp, hf, ht⟩ := Reporter.RowKey.mk.inj hkey
      simp [ho, hp, hf, ht] at hnone
  | some r' =>
      have hmem := List.mem_of_find?_eq_some hfind
      have hpred := List.find?_some hfind
      simp only [Bool.and_eq_true, Bool.not_eq_true', beq_iff_eq] at hpred
      obtain ⟨⟨⟨ho, hp⟩, hf⟩, ht⟩ := hpred
      have hkey' : Reporter.key r' = Reporter.key r := by rw [hkey, Reporter.key, ho, hp, hf, ht]
      exact congrArg StageReport.cumulative (List.inj_on_of_nodup_map hnodup hmem hr hkey')

omit [Accum A] in
theorem snapshot_of_no_row [Inhabited F] {p : UInt32} {f t : UInt8}
    (h : (⟨false, p, f, t⟩ : Reporter.RowKey) ∉ c.reports.map Reporter.key) :
    c.snapshot p f t = ⟨0, 0, 0, 0, 0, 0, 0, default⟩ := by
  unfold snapshot
  cases hfind : c.reports.find? fun r => !r.overflow && r.point == p && r.fromStep == f && r.toStep == t with
  | none => rfl
  | some r =>
      have hpred := List.find?_some hfind
      simp only [Bool.and_eq_true, Bool.not_eq_true', beq_iff_eq] at hpred
      obtain ⟨⟨⟨ho, hp⟩, hf⟩, ht⟩ := hpred
      refine absurd (List.mem_map.mpr ⟨r, List.mem_of_find?_eq_some hfind, ?_⟩) h
      rw [Reporter.key, ho, hp, hf, ht]

end Collector

/-! ## Complete spans -/

/-- The statistics of some samples: none, or those of an accumulator that was fed them, with nothing counted beside. -/
inductive Tells [Accum A] [Inhabited F] (env : ReportEnv A F) (loss stalled : Nat) (raw : Bool) (vs : Multiset UInt64)
    (s : Stats F) : Prop
  | nothing (hvs : vs = 0) (hs : s = ⟨0, 0, 0, 0, 0, 0, 0, default⟩)
  | fed (l : List UInt64) (hne : l ≠ []) (hvs : (l : Multiset UInt64) = vs)
      (hs : s = env.toStats (Accum.feed l) {} loss stalled raw)

/-- What is published after a flush tells what the spans are charged: a row for each stage they bring samples to, no
other, and `snapshot` their statistics. -/
structure SpanReport [Accum A] [Inhabited F] (o : FlushOutside A F) (loss stalled : Nat) (spans : List CompleteSpan)
    (overhead : UInt64) (c : Collector A F) : Prop where
  unique : (c.reports.map Reporter.key).Nodup
  rows : ∀ k, k ∈ c.reports.map Reporter.key ↔
    k.overflow = false ∧ netSamples overhead spans k.point k.fromStep k.toStep ≠ 0
  snapshot : ∀ p f t, Tells o.env loss stalled (isValueStage f t) (netSamples overhead spans p f t) (c.snapshot p f t)

namespace NetMeasured

variable [Accum A] {spans : List CompleteSpan} {overhead : UInt64} {reported : UInt64 → Nat} {P : Pairer A}

/-- There is nothing to report but the stages. -/
theorem wantedRows_eq (h : NetMeasured spans overhead reported P) (env : ReportEnv A F) {st : Reporter A F}
    (hP : st.pairer = P) (hready : Reporter.FlushReady st) (newLosses newStalled : Nat) :
    st.wantedRows env newLosses newStalled = st.stageRows env newLosses newStalled := by
  have hpoints : st.pairer.points.entries.filter (Reporter.stageless st.pairer) = [] := by
    rw [List.filter_eq_nil_iff]
    intro e he
    have hfind := (OpenMap.find_eq_some hready.kept.wf).mpr he
    have hnone := h.counters e.1.toUInt32
    rw [← hP, Pairer.anomaliesOf, ← hready.kept.keyed e.1 e.2 hfind, hfind, Option.getD_some] at hnone
    rw [Reporter.stageless, hnone]
    simp [PointAnomalies.any]
  have hoverflow : st.pairer.overflow.any = false := by
    rw [hP, h.overflow]
    rfl
  rw [Reporter.wantedRows, hpoints, Reporter.overflowRows, hoverflow]
  simp

/-- The flush of a pairer that has measured the spans. -/
theorem report [Inhabited F] (hl : Accum.Lawful A) (h : NetMeasured spans overhead reported P) {c : Collector A F}
    {cfg : Config} (hc : c.Settled cfg) {o : FlushOutside A F} (hP : (c.swept o).pairer = P) :
    SpanReport o (o.loss + c.merger.ringLost) c.merger.stalledSlots spans overhead (c.doFlush o) := by
  have hready := hc.ready o
  have hrows := c.reports_bare o hready
  rw [h.wantedRows_eq o.env hP hready, Reporter.stageRows, hP, List.map_map] at hrows
  have hkeys : ((c.doFlush o).reports.map Reporter.key).Perm
      (P.stages.entries.map fun e => (⟨false, e.2.point, e.2.fromStep, e.2.toStep⟩ : Reporter.RowKey)) := by
    have hmapped := hrows.map Reporter.key
    rw [List.map_map, List.map_map] at hmapped
    exact hmapped
  have hwf : P.stages.WF := hP ▸ hready.stages
  have hnodup : ((c.doFlush o).reports.map Reporter.key).Nodup :=
    hkeys.nodup_iff.mpr (Reporter.stageKeys_nodup hwf h.keyed)
  have hmem : ∀ k : Reporter.RowKey, k ∈ (c.doFlush o).reports.map Reporter.key ↔
      k.overflow = false ∧ (P.stages.find (stageKey k.point k.fromStep k.toStep)).isSome = true := by
    intro k
    rw [hkeys.mem_iff, List.mem_map]
    constructor
    · rintro ⟨e, he, rfl⟩
      have hfind := (OpenMap.find_eq_some hwf).mpr he
      rw [h.keyed e.1 e.2 hfind] at hfind
      exact ⟨rfl, by rw [hfind]; rfl⟩
    · rintro ⟨ho, hsome⟩
      obtain ⟨g, hg⟩ := Option.isSome_iff_exists.mp hsome
      obtain ⟨hp, hf, ht⟩ := stageKey_inj (h.keyed _ g hg)
      refine ⟨(_, g), (OpenMap.find_eq_some hwf).mp hg, ?_⟩
      rw [← hp, ← hf, ← ht, ← ho]
  have hsamples : ∀ p f t, (P.stages.find (stageKey p f t)).isSome = true ↔ netSamples overhead spans p f t ≠ 0 := by
    intro p f t
    cases hfind : P.stages.find (stageKey p f t) with
    | none => simp [(h.absent p f t hfind).1]
    | some g => simp [(h.present p f t g hfind).1]
  refine ⟨hnodup, fun k => by rw [hmem, hsamples], fun p f t => ?_⟩
  cases hfind : P.stages.find (stageKey p f t) with
  | none =>
      refine .nothing (h.absent p f t hfind).1 (Collector.snapshot_of_no_row fun hrow => ?_)
      have hsome := ((hmem _).mp hrow).2
      rw [hfind] at hsome
      cases hsome
  | some g =>
      obtain ⟨hne, before, since, hcumulative, hinterval, hlog, -⟩ := h.present p f t g hfind
      obtain ⟨hp, hf, ht⟩ := stageKey_inj (h.keyed _ g hfind)
      have hrow : ((c.swept o).stageRow o.env (c.newLosses o) c.newStalled g).bare ∈
          (c.doFlush o).reports.map StageReport.bare :=
        hrows.mem_iff.mpr (List.mem_map.mpr ⟨(_, g), (OpenMap.find_eq_some hwf).mp hfind, rfl⟩)
      obtain ⟨r, hr, hbare⟩ := List.mem_map.mp hrow
      have hkey : Reporter.key r = ⟨false, p, f, t⟩ := by
        have hsame := congrArg Reporter.key hbare
        rw [hp, hf, ht]
        exact hsame
      have hcum : r.cumulative = o.env.toStats (Reporter.merged g).cumulative {} (o.loss + c.merger.ringLost)
          c.merger.stalledSlots (isValueStage f t) := by
        have hsame := congrArg StageReport.cumulative hbare
        have hcounters : (c.swept o).pairer.anomaliesOf g.point = {} := by rw [hP]; exact h.counters g.point
        rw [hf, ht, ← hcounters]
        exact hsame
      have hmerged : (Reporter.merged g).cumulative = Accum.feed (before ++ since) := by
        rw [Reporter.merged, hcumulative, hinterval]
        exact hl.merge_feed before since
      refine .fed (before ++ since) (fun hnil => hne ?_) hlog ?_
      · rw [← hlog, hnil]
        rfl
      · rw [Collector.snapshot_of_row hnodup hr hkey, hcum, hmerged]

end NetMeasured

/-- A flush told what the spans are charged, and `rows` and its own together each sample of them once. -/
structure SpansTold [Accum A] [Inhabited F] (o : FlushOutside A F) (loss stalled : Nat) (spans : List CompleteSpan)
    (overhead : UInt64) (rows : List (StageReport F)) (c : Collector A F) : Prop where
  report : SpanReport o loss stalled spans overhead c
  once : ∀ p f t, Reporter.reportedOf (stageKey p f t) (rows ++ c.reports) = (netSamples overhead spans p f t).card

/-- The flush of a pairer that has measured the spans, `rows` being those of the flushes before it. -/
theorem NetMeasured.told [Accum A] [Inhabited F] (hl : Accum.Lawful A) {spans : List CompleteSpan} {overhead : UInt64}
    {rows : List (StageReport F)} {c : Collector A F} {cfg : Config}
    (h : NetMeasured spans overhead (fun key => Reporter.reportedOf key rows) c.merger.pairer) (hc : c.Settled cfg)
    (hlost : c.merger.ringLost = 0) {o : FlushOutside A F} (hspared : Pairer.Spares o.sweep c.merger.pairer) :
    SpansTold o o.loss c.merger.stalledSlots spans overhead rows (c.doFlush o) := by
  have hswept : (c.swept o).pairer = c.merger.pairer := by
    unfold Collector.swept Reporter.swept
    cases hs : (c.flushInput o).sweep with
    | none => rfl
    | some x => exact congrArg Prod.fst (Pairer.sweep_spares (hspared x hs))
  have hreport := h.report hl hc hswept
  rw [hlost] at hreport
  refine ⟨hreport, fun p f t => ?_⟩
  obtain ⟨Q, excess, csv, hs⟩ := hc
  obtain ⟨L, hb⟩ := hs.balanced
  rw [Reporter.reportedOf_append, c.reportedOf_doFlush o, ← h.total hl p f t]
  congr 1
  have hbal : Balanced cfg c.reporter.pairer L := hb
  exact Flushed.reportedOf_doFlush hl _ hbal _ _

end SlickPerfmon
