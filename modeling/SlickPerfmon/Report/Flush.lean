import SlickPerfmon.Pairing.Pairer

/-!
# The flush

`do_flush`, `build_reports` and `write_csv`: the rows of one interval are built from the stage table and the point
counters into the vector an earlier flush left, published, and written to the CSV where they have something to
say. Figures of an accumulator (minimum, mean, percentiles, in the unit the row shows) and published names come
from outside; counts are natural numbers.
-/

namespace SlickPerfmon

open Library

inductive Counter
  | invalid
  | abandoned
  | orphan
  | outOfRange
deriving DecidableEq, Repr

def PointAnomalies.get (a : PointAnomalies) : Counter → Nat
  | .invalid => a.invalid
  | .abandoned => a.abandoned
  | .orphan => a.orphan
  | .outOfRange => a.outOfRange

/-- `stats`; `figures` are all its fields that are not counts. -/
structure Stats (F : Type) where
  count : Nat
  dropped : Nat
  invalid : Nat
  stalled : Nat
  outOfRange : Nat
  abandoned : Nat
  orphan : Nat
  figures : F
deriving DecidableEq, Repr

def Stats.get {F : Type} (s : Stats F) : Counter → Nat
  | .invalid => s.invalid
  | .abandoned => s.abandoned
  | .orphan => s.orphan
  | .outOfRange => s.outOfRange

structure StageReport (F : Type) where
  point : UInt32
  fromStep : UInt8
  toStep : UInt8
  pointName : String
  stageName : String
  interval : Stats F
  cumulative : Stats F
  anomaliesOnly : Bool
  overflow : Bool
  value : Bool
  summary : F
deriving DecidableEq, Repr

/-- A point's rows: `carrier` is an index into the row vector. -/
structure RowRef where
  carrier : Nat
  hasSamples : Bool
deriving DecidableEq, Repr

structure CsvRow (F : Type) where
  pointName : String
  stageName : String
  isValue : Bool
  stats : Stats F
deriving DecidableEq, Repr

/-- What a session's reports are made with. `lookup` is the control block's, empty for an unnamed key; `figures`
and `summary` are the clock, unit and percentile settings applied to an accumulator; `csvOpen` says that
`config::path` is set and its stream opens. -/
structure ReportEnv (A F : Type) where
  lookup : UInt32 → UInt8 → String
  figures : A → Bool → F
  summary : F → A → Bool → F
  csvOpen : Bool

/-- The part of the Collector a flush reads and writes. -/
structure Reporter (A F : Type) where
  pairer : Pairer A
  rowPoints : OpenMap RowRef
  pointBaseline : OpenMap PointAnomalies
  overflowBaseline : PointAnomalies
  lastLoss : Nat
  stalledSlots : Nat
  reportedStalled : Nat
  buildRows : List (StageReport F)
  reports : List (StageReport F)
  publishedStalled : Nat
  csv : List (CsvRow F)

/-- The row vector while it is refilled, and the tables that go with it. -/
structure Build (F : Type) where
  out : List (StageReport F)
  n : Nat
  rowPoints : OpenMap RowRef
  baseline : OpenMap PointAnomalies

variable {A F : Type} [Accum A]

def kValueStageName : String := "value"

namespace ReportEnv

variable (env : ReportEnv A F)

def pointName (p : UInt32) : String :=
  let nm := env.lookup p kBeginStep
  if nm = "" then "point_" ++ toString p.toNat else nm

def stageName (p : UInt32) (fromStep toStep : UInt8) : String :=
  if fromStep = kBeginStep ∧ toStep = kBeginStep then "total"
  else if isValueStage fromStep toStep then kValueStageName
  else
    let nm := env.lookup p toStep
    if nm = "" ∨ nm = kValueStageName then
      "step_" ++ toString fromStep.toNat ++ "->" ++ toString toStep.toNat
    else nm

def toStats (acc : A) (an : PointAnomalies) (dropped stalled : Nat) (raw : Bool) : Stats F :=
  { count := Accum.count acc
    dropped := dropped
    invalid := an.invalid
    stalled := stalled
    outOfRange := an.outOfRange
    abandoned := an.abandoned
    orphan := an.orphan
    figures := env.figures acc raw }

end ReportEnv

/-- `next_row`, filled with `r`: every field of a recycled row is assigned. -/
def Build.putRow (b : Build F) (r : StageReport F) : Build F :=
  { b with out := if b.n = b.out.length then b.out ++ [r] else b.out.set b.n r, n := b.n + 1 }

/-- The lambda `note_row`. -/
def noteRow (rows : OpenMap RowRef) (p : UInt32) (index : Nat) (r : StageReport F) : OpenMap RowRef :=
  let mark (ref : RowRef) : RowRef := { ref with hasSamples := ref.hasSamples || r.interval.count != 0 }
  match rows.find p.toUInt64 with
  | none =>
      match rows.insert p.toUInt64 ⟨index, false⟩ with
      | (rows, none) => rows
      | (rows, some _) => rows.modify p.toUInt64 mark
  | some _ =>
      rows.modify p.toUInt64 fun ref =>
        mark (if r.fromStep = kBeginStep ∧ r.toStep = kBeginStep then { ref with carrier := index } else ref)

namespace Reporter

variable (env : ReportEnv A F) (st : Reporter A F) (newLosses newStalled : Nat)

def baselineOf (baseline : OpenMap PointAnomalies) (p : UInt32) : PointAnomalies :=
  (baseline.find p.toUInt64).getD {}

/-- The cumulative accumulator of a row already includes the interval. -/
def merged (g : Stage A) : Stage A := { g with cumulative := Accum.mergeInto g.interval g.cumulative }

/-! ## The three passes of `build_reports` -/

def stageRow (g : Stage A) : StageReport F :=
  let value := isValueStage g.fromStep g.toStep
  let an := st.pairer.anomaliesOf g.point
  let cumulative := env.toStats (merged g).cumulative an st.lastLoss st.stalledSlots value
  { point := g.point
    fromStep := g.fromStep
    toStep := g.toStep
    pointName := env.pointName g.point
    stageName := env.stageName g.point g.fromStep g.toStep
    interval := env.toStats g.interval (an.since (baselineOf st.pointBaseline g.point)) newLosses newStalled value
    cumulative := cumulative
    anomaliesOnly := false
    overflow := false
    value := value
    summary := env.summary cumulative.figures (merged g).cumulative value }

def stageStep (b : Build F) (e : UInt64 × Stage A) : Build F :=
  let r := st.stageRow env newLosses newStalled e.2
  let b := b.putRow r
  { b with rowPoints := noteRow b.rowPoints e.2.point (b.n - 1) r }

/-- The lambda `anomaly_row`, with the name its caller gives the row. -/
def anomalyRow (p : UInt32) (name : String) (overflow : Bool) (delta total : PointAnomalies) : StageReport F :=
  let cumulative := env.toStats Accum.empty total st.lastLoss st.stalledSlots false
  { point := p
    fromStep := kBeginStep
    toStep := kBeginStep
    pointName := name
    stageName := "total"
    interval := env.toStats Accum.empty delta newLosses newStalled false
    cumulative := cumulative
    anomaliesOnly := delta.any
    overflow := overflow
    value := false
    summary := env.summary cumulative.figures Accum.empty false }

def moveBaseline (baseline : OpenMap PointAnomalies) (p : UInt32) (an : PointAnomalies) :
    OpenMap PointAnomalies :=
  match baseline.find p.toUInt64 with
  | some _ => baseline.modify p.toUInt64 fun _ => an
  | none => (baseline.insert p.toUInt64 an).1

def pointStep (b : Build F) (e : UInt64 × PointAnomalies) : Build F :=
  let p := e.1.toUInt32
  let an := e.2
  if an.any then
    let delta := an.since (baselineOf b.baseline p)
    let b := if delta.any then { b with baseline := moveBaseline b.baseline p an } else b
    match b.rowPoints.find p.toUInt64 with
    | none => b.putRow (st.anomalyRow env newLosses newStalled p (env.pointName p) false delta an)
    | some ref =>
        if ref.hasSamples || !delta.any then b
        else
          -- every row of the point is empty: exempt the one that stands for it
          { b with out := b.out.modify ref.carrier fun r => { r with anomaliesOnly := true } }
  else b

def overflowStep (b : Build F) : Build F :=
  let ov := st.pairer.overflow
  if ov.any then
    b.putRow (st.anomalyRow env newLosses newStalled 0 "overflow" true (ov.since st.overflowBaseline) ov)
  else b

/-- The order of the rows: the overflow row last, points ascending, `total` under the stages it sums. -/
def rowBefore (a b : StageReport F) : Bool :=
  let total (r : StageReport F) : Bool := r.fromStep == kBeginStep && r.toStep == kBeginStep
  if a.overflow ≠ b.overflow then b.overflow
  else if a.point ≠ b.point then a.point < b.point
  else if total a ≠ total b then total b
  else if a.fromStep ≠ b.fromStep then a.fromStep < b.fromStep
  else a.toStep < b.toStep

/-- The vector after the three passes, before it is resized and sorted. -/
def built (out : List (StageReport F)) : Build F :=
  let b : Build F := ⟨out, 0, st.rowPoints.clear, st.pointBaseline⟩
  let b := st.pairer.stages.entries.foldl (st.stageStep env newLosses newStalled) b
  let b := st.pairer.points.entries.foldl (st.pointStep env newLosses newStalled) b
  st.overflowStep env newLosses newStalled b

def buildReports : Reporter A F :=
  let b := st.built env newLosses newStalled st.buildRows
  { st with
    pairer := { st.pairer with stages := st.pairer.stages.forEach fun _ => merged }
    rowPoints := b.rowPoints
    pointBaseline := b.baseline
    overflowBaseline := st.pairer.overflow
    buildRows := (b.out.take b.n).mergeSort fun a b => !rowBefore b a }

/-! ## Writing and publishing -/

def written (r : StageReport F) : Bool := !(r.interval.count == 0 && !r.anomaliesOnly)

def csvRow (r : StageReport F) : CsvRow F := ⟨r.pointName, r.stageName, r.value, r.interval⟩

/-- The row of an interval that wrote no other. -/
def collectorRow : CsvRow F :=
  ⟨"collector", "total", false, env.toStats Accum.empty {} newLosses newStalled false⟩

def writeCsv (rows : List (StageReport F)) : Reporter A F :=
  if env.csvOpen then
    let wrote := rows.filter written
    let alone := wrote.isEmpty && (newLosses != 0 || newStalled != 0)
    { st with
      csv := st.csv ++ wrote.map csvRow ++ if alone then [collectorRow env newLosses newStalled] else [] }
  else st

/-- What a flush finds outside: the sweep's clock and age limit, if the clock is calibrated, and the losses and
stalled slots so far. -/
structure FlushInput where
  sweep : Option (UInt64 × UInt64)
  loss : Nat
  stalledSlots : Nat
deriving DecidableEq, Repr

/-- The state a flush builds its rows from. -/
def swept (f : FlushInput) : Reporter A F :=
  { st with
    pairer :=
      match f.sweep with
      | some (nowTsc, age) => (st.pairer.sweep nowTsc age).1
      | none => st.pairer
    lastLoss := f.loss
    stalledSlots := f.stalledSlots
    reportedStalled := f.stalledSlots }

def doFlush (f : FlushInput) : Reporter A F :=
  let newLosses := if f.loss > st.lastLoss then f.loss - st.lastLoss else 0
  let newStalled := f.stalledSlots - st.reportedStalled
  let st := st.swept f
  let st := st.buildReports env newLosses newStalled
  let st := st.writeCsv env newLosses newStalled st.buildRows
  { st with
    pairer := st.pairer.clearIntervals
    reports := st.buildRows
    buildRows := st.reports
    publishedStalled := st.stalledSlots }

end Reporter

/-! ## A session -/

/-- What happens to a session's reports: an event is paired, a flush runs, the open spans are abandoned. -/
inductive SessionStep
  | event (s : Sample)
  | flush (f : Reporter.FlushInput)
  | abandonAll
deriving DecidableEq, Repr

namespace Reporter

variable (H : HeapLib) (env : ReportEnv A F)

/-- A session whose collector has just reset its tables; the rows last published are those of the session before. -/
def reset (cfg : Config) (overheadCycles : UInt64) (reports : List (StageReport F)) : Reporter A F :=
  { pairer := (Pairer.reset cfg).setOverhead overheadCycles
    rowPoints := OpenMap.reset cfg.maxStages
    pointBaseline := OpenMap.reset cfg.maxStages
    overflowBaseline := {}
    lastLoss := 0
    stalledSlots := 0
    reportedStalled := 0
    buildRows := []
    reports := reports
    publishedStalled := 0
    csv := [] }

def step (st : Reporter A F) : SessionStep → Reporter A F
  | .event s => { st with pairer := st.pairer.onEvent H s }
  | .flush f => st.doFlush env f
  | .abandonAll => { st with pairer := st.pairer.abandonAll.1 }

def run (st : Reporter A F) (steps : List SessionStep) : Reporter A F := steps.foldl (step H env) st

end Reporter

end SlickPerfmon
