import SlickPerfmon.Library.StdSort
import SlickPerfmon.Report.Lemmas.Alike

/-!
# The rows, refilled in place

`next_row`, `to_stats`, `to_summary` and the row builders of `build_reports` at the level of single fields: a row
arrives with what an earlier flush left in it, and its builder assigns one field after the other. What it shows is the
row of the flush.
-/

namespace SlickPerfmon

open Library

/-- What a flush takes figures from: the clock, the unit and the percentiles of the configuration, of which two are
those of the summary. `D` are the floating-point numbers; names and the stream are those of the reports. -/
structure FigureEnv (A D : Type) where
  lookup : UInt32 → UInt8 → String
  csvOpen : Bool
  invariant : Bool
  /-- From cycles to the configured unit. -/
  convert : D → D
  min : A → D
  max : A → D
  mean : A → D
  stddev : A → D
  percentile : A → D → D
  percentiles : List D
  /-- 50.0 and 99.0. -/
  median : D
  tail : D

/-- The figures of a row: those of one of its two statistics, or those of its summary. -/
inductive RowFigures (D : Type)
  | stats (min max mean stddev : D) (percentiles : List D) (invariantTsc : Bool)
  | summary (p50 p99 : D)
deriving DecidableEq, Repr

namespace InPlace

/-- `stats`, with each of its fields. -/
structure Stats (D : Type) where
  count : Nat
  dropped : Nat
  invalid : Nat
  stalled : Nat
  outOfRange : Nat
  abandoned : Nat
  orphan : Nat
  min : D
  max : D
  mean : D
  stddev : D
  percentiles : List D
  invariantTsc : Bool
deriving DecidableEq, Repr

structure StageReport (D : Type) where
  point : UInt32
  fromStep : UInt8
  toStep : UInt8
  pointName : String
  stageName : String
  interval : Stats D
  cumulative : Stats D
  anomaliesOnly : Bool
  overflow : Bool
  value : Bool
  summaryP50 : D
  summaryP99 : D
deriving DecidableEq, Repr

/-- The row vector while it is refilled, and the tables that go with it. -/
structure Build (D : Type) where
  out : List (StageReport D)
  n : Nat
  rowPoints : OpenMap RowRef
  baseline : OpenMap PointAnomalies

variable {A D : Type}

section Defaults

variable [Zero D]

/-- A `stats` that has just been constructed. -/
def Stats.new : Stats D := ⟨0, 0, 0, 0, 0, 0, 0, 0, 0, 0, 0, [], true⟩

/-- The row that `emplace_back` appends. -/
def StageReport.new : StageReport D := ⟨0, 0, 0, "", "", .new, .new, false, false, false, 0, 0⟩

/-- `next_row`: the row is the one left in the vector where there is one. -/
def Build.nextRow (b : Build D) : Build D :=
  { b with out := if b.n = b.out.length then b.out ++ [.new] else b.out, n := b.n + 1 }

/-- A builder assigns fields of the row it has just taken. -/
def Build.refill (b : Build D) (f : StageReport D → StageReport D) : Build D :=
  let b := b.nextRow
  { b with out := b.out.modify (b.n - 1) f }

/-- `snapshot` once it has flushed. -/
def snapshot (rows : List (StageReport D)) (p : UInt32) (fromStep toStep : UInt8) : Stats D :=
  match rows.find? fun r => !r.overflow && r.point == p && r.fromStep == fromStep && r.toStep == toStep with
  | some r => r.cumulative
  | none => .new

end Defaults

/-! ## What a row shows -/

def Stats.shown (s : Stats D) : SlickPerfmon.Stats (RowFigures D) :=
  { count := s.count
    dropped := s.dropped
    invalid := s.invalid
    stalled := s.stalled
    outOfRange := s.outOfRange
    abandoned := s.abandoned
    orphan := s.orphan
    figures := .stats s.min s.max s.mean s.stddev s.percentiles s.invariantTsc }

def StageReport.shown (r : StageReport D) : SlickPerfmon.StageReport (RowFigures D) :=
  { point := r.point
    fromStep := r.fromStep
    toStep := r.toStep
    pointName := r.pointName
    stageName := r.stageName
    interval := r.interval.shown
    cumulative := r.cumulative.shown
    anomaliesOnly := r.anomaliesOnly
    overflow := r.overflow
    value := r.value
    summary := .summary r.summaryP50 r.summaryP99 }

def Build.shown (b : Build D) : SlickPerfmon.Build (RowFigures D) :=
  ⟨b.out.map StageReport.shown, b.n, b.rowPoints, b.baseline⟩

end InPlace

/-! ## Figures -/

namespace FigureEnv

variable {A D : Type} [BEq D] (env : FigureEnv A D)

omit [BEq D] in
def scaled (v : D) (raw : Bool) : D := if raw then v else env.convert v

def kNotConfigured : Nat := 2 ^ 64 - 1

def configuredIndex (p : D) : Nat := (env.percentiles.findIdx? (· == p)).getD kNotConfigured

/-- A percentile of the summary: the configured one where the list has it, and the histogram's where it does not. -/
def summaryFigure (configured : List D) (p : D) (acc : A) (raw : Bool) : D :=
  match configured[env.configuredIndex p]? with
  | some v => v
  | none => env.scaled (env.percentile acc p) raw

/-- The figures as the reports name them. -/
def report : ReportEnv A (RowFigures D) where
  lookup := env.lookup
  figures acc raw :=
    .stats (env.scaled (env.min acc) raw) (env.scaled (env.max acc) raw) (env.scaled (env.mean acc) raw)
      (env.scaled (env.stddev acc) raw) (env.percentiles.map fun p => env.scaled (env.percentile acc p) raw)
      env.invariant
  summary
    | .stats _ _ _ _ ps _, acc, raw =>
        .summary (env.summaryFigure ps env.median acc raw) (env.summaryFigure ps env.tail acc raw)
    | figures, _, _ => figures
  csvOpen := env.csvOpen

end FigureEnv

/-! ## The row builders -/

namespace InPlace

variable {A D : Type} [Accum A] [BEq D] [Zero D] (env : FigureEnv A D) (st : Reporter A (RowFigures D))
  (newLosses newStalled : Nat)

omit [BEq D] [Zero D] in
def toStats (s : Stats D) (acc : A) (an : PointAnomalies) (dropped stalled : Nat) (raw : Bool) : Stats D :=
  let s := { s with count := Accum.count acc, dropped := dropped, invalid := an.invalid, stalled := stalled }
  let s := { s with outOfRange := an.outOfRange, abandoned := an.abandoned, orphan := an.orphan }
  let s := { s with invariantTsc := env.invariant }
  let s := { s with min := env.scaled (env.min acc) raw, max := env.scaled (env.max acc) raw }
  let s := { s with mean := env.scaled (env.mean acc) raw, stddev := env.scaled (env.stddev acc) raw }
  let s := { s with percentiles := [] }
  env.percentiles.foldl (fun s p => { s with percentiles := s.percentiles ++ [env.scaled (env.percentile acc p) raw] }) s

omit [Accum A] [Zero D] in
def toSummary (r : StageReport D) (acc : A) : StageReport D :=
  let r := { r with summaryP50 := env.summaryFigure r.cumulative.percentiles env.median acc r.value }
  { r with summaryP99 := env.summaryFigure r.cumulative.percentiles env.tail acc r.value }

omit [Zero D] in
/-- The body of `for_each_stage`, on the row it takes. The interval is merged between the two statistics. -/
def fillStage (g : Stage A) (r : StageReport D) : StageReport D :=
  let r := { r with point := g.point, fromStep := g.fromStep, toStep := g.toStep }
  let r := { r with anomaliesOnly := false, overflow := false }
  let r := { r with value := isValueStage g.fromStep g.toStep }
  let r := { r with pointName := env.report.pointName g.point }
  let r := { r with stageName := env.report.stageName g.point g.fromStep g.toStep }
  let an := st.pairer.anomaliesOf g.point
  let delta := an.since (Reporter.baselineOf st.pointBaseline g.point)
  let r := { r with interval := toStats env r.interval g.interval delta newLosses newStalled r.value }
  let g := Reporter.merged g
  let r := { r with cumulative := toStats env r.cumulative g.cumulative an st.lastLoss st.stalledSlots r.value }
  toSummary env r g.cumulative

omit [Zero D] in
/-- The lambda `anomaly_row`, on the row it takes. Its callers name the point. -/
def fillAnomaly (p : UInt32) (delta total : PointAnomalies) (r : StageReport D) : StageReport D :=
  let r := { r with point := p, fromStep := kBeginStep, toStep := kBeginStep }
  let r := { r with stageName := "total" }
  let r := { r with anomaliesOnly := delta.any, overflow := false, value := false }
  let r := { r with interval := toStats env r.interval Accum.empty delta newLosses newStalled false }
  let r := { r with cumulative := toStats env r.cumulative Accum.empty total st.lastLoss st.stalledSlots false }
  toSummary env r Accum.empty

def stageStep (b : Build D) (e : UInt64 × Stage A) : Build D :=
  let b := b.refill (fillStage env st newLosses newStalled e.2)
  match b.out[b.n - 1]? with
  | some r => { b with rowPoints := noteRow b.rowPoints e.2.point (b.n - 1) r.shown }
  | none => b

def pointStep (b : Build D) (e : UInt64 × PointAnomalies) : Build D :=
  let p := e.1.toUInt32
  let an := e.2
  if an.any then
    let delta := an.since (Reporter.baselineOf b.baseline p)
    let b := if delta.any then { b with baseline := Reporter.moveBaseline b.baseline p an } else b
    match b.rowPoints.find p.toUInt64 with
    | none =>
        b.refill fun r =>
          { fillAnomaly env st newLosses newStalled p delta an r with pointName := env.report.pointName p }
    | some ref =>
        if ref.hasSamples || !delta.any then b
        else { b with out := b.out.modify ref.carrier fun r => { r with anomaliesOnly := true } }
  else b

def overflowStep (b : Build D) : Build D :=
  let ov := st.pairer.overflow
  if ov.any then
    b.refill fun r =>
      { fillAnomaly env st newLosses newStalled 0 (ov.since st.overflowBaseline) ov r with
        pointName := "overflow"
        overflow := true }
  else b

/-- The vector after the three passes, `out` being what it held before. -/
def built (out : List (StageReport D)) : Build D :=
  let b : Build D := ⟨out, 0, st.rowPoints.clear, st.pointBaseline⟩
  let b := st.pairer.stages.entries.foldl (stageStep env st newLosses newStalled) b
  let b := st.pairer.points.entries.foldl (pointStep env st newLosses newStalled) b
  overflowStep env st newLosses newStalled b

def buildReports (S : SortLib) (out : List (StageReport D)) : List (StageReport D) :=
  let b := built env st newLosses newStalled out
  S.sort (fun r r' => Reporter.rowBefore r.shown r'.shown) (b.out.take b.n)

end InPlace

end SlickPerfmon
