import SlickPerfmon.Library.TransitionSystem
import SlickPerfmon.Merge.MergePass
import SlickPerfmon.Report.Flush

/-!
# The life of a Collector

`start`, `shutdown` and what the collector thread and the callers do between them, on the members of the Collector
that a session leaves to the next. A pass and a flush are one step each; the flush handshake has them at the level of
single loads and stores. What the rings hold, what the clock reads and the names published come from outside.
-/

namespace SlickPerfmon

open Library

inductive Mode
  | localMode
  | sharedCollector
  | sharedProducer
deriving DecidableEq, Repr

/-- The two label caches, and the generation of the name table they were filled at. -/
structure LabelCaches where
  pointNames : OpenMap String
  stageNames : OpenMap String
  cachedNameGeneration : Nat

/-- The members of a Collector. Its pairer, cursors, stage and counts of losses and stalled slots are those of the
merge; the scratch that each pass clears before it reads it is left out. -/
structure Collector (A F : Type) where
  mode : Mode
  started : Bool
  running : Bool
  merger : Merger A
  rowPoints : OpenMap RowRef
  pointBaseline : OpenMap PointAnomalies
  overflowBaseline : PointAnomalies
  lastLoss : Nat
  reportedStalled : Nat
  labels : LabelCaches
  buildRows : List (StageReport F)
  reports : List (StageReport F)
  publishedStalled : Nat
  csv : List (CsvRow F)
  flushRequest : Nat
  flushDone : Nat

/-- What `start` is given and finds: the settings, the rings it opens, the cost of a stamp that `measure_overhead`
measures, and the generation of the name table. -/
structure StartInput where
  mode : Mode
  tables : Config
  subtractOverhead : Bool
  world : World
  overhead : UInt64
  generation : Nat

/-- What a flush finds outside: names, figures and the stream, the generation of the name table, the sweep's clock and
age limit, and what the shared ring counts as lost. -/
structure FlushOutside (A F : Type) where
  env : ReportEnv A F
  generation : Nat
  sweep : Option (UInt64 × UInt64)
  loss : Nat

/-- The rounds that the final drain takes, the watermark of its pass, and its flush. -/
structure ShutdownInput (A F : Type) where
  rounds : Nat
  watermark : UInt64
  flush : FlushOutside A F

/-! ## Labels -/

namespace LabelCaches

variable {A F : Type} (env : ReportEnv A F) (caches : LabelCaches)

def reset (maxEntries : UInt32) (generation : Nat) : LabelCaches :=
  ⟨OpenMap.reset maxEntries, OpenMap.reset maxEntries, generation⟩

def refreshNameCache (generation : Nat) : LabelCaches :=
  if generation = caches.cachedNameGeneration then caches
  else ⟨caches.pointNames.clear, caches.stageNames.clear, generation⟩

def resolvePointName (p : UInt32) : LabelCaches × String :=
  match caches.pointNames.find p.toUInt64 with
  | some hit => (caches, hit)
  | none =>
      let label := env.pointName p
      ({ caches with pointNames := (caches.pointNames.insert p.toUInt64 label).1 }, label)

def resolveStageName (p : UInt32) (fromStep toStep : UInt8) : LabelCaches × String :=
  if (fromStep = kBeginStep ∧ toStep = kBeginStep) ∨ isValueStage fromStep toStep then
    (caches, env.stageName p fromStep toStep)
  else
    let key := stageKey p fromStep toStep
    match caches.stageNames.find key with
    | some hit => (caches, hit)
    | none =>
        let label := env.stageName p fromStep toStep
        ({ caches with stageNames := (caches.stageNames.insert key label).1 }, label)

/-- The overflow row has a name of its own. -/
def labelRow (r : StageReport F) : LabelCaches × StageReport F :=
  if r.overflow then (caches, r)
  else
    match caches.resolvePointName env r.point with
    | (caches, pointName) =>
        match caches.resolveStageName env r.point r.fromStep r.toStep with
        | (caches, stageName) => (caches, { r with pointName := pointName, stageName := stageName })

def labelRows : List (StageReport F) → LabelCaches → LabelCaches × List (StageReport F)
  | [], caches => (caches, [])
  | r :: rest, caches =>
      match caches.labelRow env r with
      | (caches, r) =>
          match labelRows rest caches with
          | (caches, rest) => (caches, r :: rest)

end LabelCaches

/-! ## The final drain -/

namespace Merger

variable {A : Type} [Accum A] (H : HeapLib) (env : World) (m : Merger A)

/-- In the unit of the world's clock, nanoseconds. -/
def kFinalDrainGrace : Nat := 100000000

/-- The loop over what was reserved when the drain began; `rounds` bounds it. -/
def finalDrainLoop (target deadline : Nat) : Nat → Merger A → Option (Merger A)
  | 0, _ => none
  | rounds + 1, m =>
      if m.cursor < target then
        match m.readSharedOnce H env with
        | (m, true) => finalDrainLoop target deadline rounds m
        | (m, false) =>
            -- the read owns the cursor: a hole is stepped over from wherever it left it
            if target ≤ m.cursor then some m
            else
              let now := env.now m.time
              let m := { m with time := m.time + 1 }
              finalDrainLoop target deadline rounds (if now < deadline then m else m.skipHole)
      else some m

def finalDrain (Hm : HeapLib) (rounds : Nat) (watermark : UInt64) : Option (Merger A) :=
  let target := env.reserved m.time
  let deadline := env.now (m.time + 1) + min env.stalledSampleTimeout kFinalDrainGrace
  (finalDrainLoop H env target deadline rounds { m with time := m.time + 2 }).map fun m =>
    { m with stalledSince := none }.mergePass H env Hm watermark

end Merger

namespace Collector

variable {A F : Type} [Accum A] (H Hm : HeapLib)

/-- A Collector that has just been constructed. -/
def fresh : Collector A F :=
  let noMap {V : Type} : OpenMap V := ⟨fun _ => none, 0, 0, 0⟩
  { mode := .localMode
    started := false
    running := false
    merger :=
      { pairer := ⟨noMap, noMap, noMap, {}, 0, 0, [], 0, 0⟩
        cursor := 0
        sharedStage := []
        stalledSince := none
        stalledSlots := 0
        ringCursor := fun _ => 0
        ringWaitTs := fun _ => 0
        ringLost := 0
        progressed := false
        time := 0
        handed := []
        taken := []
        skipped := []
        reads := [] }
    rowPoints := noMap
    pointBaseline := noMap
    overflowBaseline := {}
    lastLoss := 0
    reportedStalled := 0
    labels := ⟨noMap, noMap, 0⟩
    buildRows := []
    reports := []
    publishedStalled := 0
    csv := []
    flushRequest := 0
    flushDone := 0 }

variable (c : Collector A F)

/-- The collector thread runs. -/
def threaded : Bool := c.started && c.mode != .sharedProducer

/-! ## A flush -/

/-- The members a flush reads and writes. -/
def reporter : Reporter A F :=
  { pairer := c.merger.pairer
    rowPoints := c.rowPoints
    pointBaseline := c.pointBaseline
    overflowBaseline := c.overflowBaseline
    lastLoss := c.lastLoss
    stalledSlots := c.merger.stalledSlots
    reportedStalled := c.reportedStalled
    buildRows := c.buildRows
    reports := c.reports
    publishedStalled := c.publishedStalled
    csv := c.csv }

/-- `do_flush`, with the labels of its rows taken through the caches. -/
def doFlush (o : FlushOutside A F) : Collector A F :=
  let loss := o.loss + c.merger.ringLost
  let newLosses := if loss > c.lastLoss then loss - c.lastLoss else 0
  let newStalled := c.merger.stalledSlots - c.reportedStalled
  let st := c.reporter.swept ⟨o.sweep, loss, c.merger.stalledSlots⟩
  let b := st.built o.env newLosses newStalled c.buildRows
  match (c.labels.refreshNameCache o.generation).labelRows o.env (b.out.take b.n) with
  | (labels, rows) =>
      let rows := rows.mergeSort fun a b => !Reporter.rowBefore b a
      let P := { st.pairer with stages := st.pairer.stages.forEach fun _ => Reporter.merged }
      { c with
        merger := { c.merger with pairer := P.clearIntervals }
        rowPoints := b.rowPoints
        pointBaseline := b.baseline
        overflowBaseline := st.pairer.overflow
        lastLoss := loss
        reportedStalled := c.merger.stalledSlots
        labels := labels
        buildRows := c.reports
        reports := rows
        publishedStalled := c.merger.stalledSlots
        csv := (st.writeCsv o.env newLosses newStalled rows).csv }

/-! ## Start and shutdown -/

/-- The cursors start at what the rings hold now. -/
def createSession (i : StartInput) : Collector A F :=
  { c with
    merger :=
      { c.merger with
        ringCursor := fun r => if r < i.world.rings then i.world.head r r else 0
        ringWaitTs := fun _ => 0
        sharedStage := []
        progressed := false
        time := i.world.rings
        handed := []
        taken := []
        skipped := []
        reads := [] } }

def resetSessionCounters : Collector A F :=
  { c with
    merger := { c.merger with stalledSlots := 0, ringLost := 0, stalledSince := none }
    lastLoss := 0
    reportedStalled := 0
    overflowBaseline := {} }

/-- `run` up to its loop. -/
def beginRun (i : StartInput) : Collector A F :=
  let P : Pairer A := Pairer.reset i.tables
  let P := if i.subtractOverhead then P.setOverhead i.overhead else P
  { { c with merger := { c.merger with pairer := P } }.resetSessionCounters with
    labels := .reset i.tables.maxStages i.generation
    rowPoints := OpenMap.reset i.tables.maxStages
    pointBaseline := OpenMap.reset i.tables.maxStages }

/-- `start` of a Collector that is not running; of one that is, it is `shutdown` and then this. -/
def start (i : StartInput) : Collector A F :=
  let c := { c with mode := i.mode }.createSession i
  let c :=
    { c with
      merger := { c.merger with cursor := i.world.reserved c.merger.time, time := c.merger.time + 1 }
      started := true
      running := i.mode != .sharedProducer }
  if i.mode = .sharedProducer then c else c.beginRun i

/-- `run` from its loop on. -/
def endRun (env : World) (i : ShutdownInput A F) : Option (Collector A F) :=
  (c.merger.finalDrain H env Hm i.rounds i.watermark).map fun m =>
    let c := { c with merger := { m with pairer := m.pairer.abandonAll.1 } }.doFlush i.flush
    { c with flushDone := c.flushRequest }

/-- What `shutdown` drops. The rows last published stay. -/
def release : Collector A F :=
  { c with
    buildRows := []
    labels := .reset 0 0
    rowPoints := OpenMap.reset 0
    pointBaseline := OpenMap.reset 0
    started := false }

/-- `shutdown` on its way to the join, with `running_` cleared. -/
def stop : Collector A F := { c with running := false }

def shutdown (env : World) (i : ShutdownInput A F) : Option (Collector A F) :=
  if c.threaded then (c.stop.endRun H Hm env i).map release
  else if c.started then some c.release
  else some c

end Collector

/-! ## The results -/

inductive Query
  | snapshot (p : UInt32) (fromStep toStep : UInt8)
  | snapshotTotal (p : UInt32)
  | snapshotValue (p : UInt32)
  | reports
deriving DecidableEq, Repr

inductive Answer (F : Type)
  | stats (s : Stats F)
  | rows (rows : List (StageReport F))
deriving DecidableEq, Repr

namespace Collector

variable {A F : Type} [Inhabited F] (c : Collector A F)

/-- `snapshot` once it has flushed. -/
def snapshot (p : UInt32) (fromStep toStep : UInt8) : Stats F :=
  match c.reports.find? fun r => !r.overflow && r.point == p && r.fromStep == fromStep && r.toStep == toStep with
  | some r => r.cumulative
  | none => ⟨0, 0, 0, 0, 0, 0, 0, default⟩

def answer : Query → Answer F
  | .snapshot p fromStep toStep => .stats (c.snapshot p fromStep toStep)
  | .snapshotTotal p => .stats (c.snapshot p kBeginStep kBeginStep)
  | .snapshotValue p => .stats (c.snapshot p kValueStep kValueStep)
  | .reports => .rows c.reports

end Collector

/-! ## Every run -/

/-- Where a thread stands in the `flush` that a result function begins with. -/
inductive CallerWait
  | idle
  /-- There was no collector thread to wait for. -/
  | ready
  | waitDone (gen : Nat)
deriving DecidableEq, Repr

/-- A Collector, the rings of the session it started last, its callers, and their results since then. -/
structure CollectorRun (Caller A F : Type) where
  collector : Collector A F
  world : World
  callers : Caller → CallerWait
  results : List (Caller × Answer F)

inductive CollectorAction (Caller A F : Type)
  /-- A `start` that returns true. -/
  | start (i : StartInput)
  /-- A `start` that returns false or throws. -/
  | failedStart (mode : Mode)
  | drainOnce (watermark : UInt64)
  /-- The periodic flush. -/
  | flush (o : FlushOutside A F)
  /-- A flush that a caller has asked for. -/
  | serve (watermark : UInt64) (o : FlushOutside A F)
  | call (caller : Caller)
  | answer (caller : Caller) (q : Query)
  /-- `shutdown` clears `running_`; the thread has not seen it yet. -/
  | stop
  /-- `wait_until` returns since `running_` is clear, and the caller reads what is there. -/
  | giveUp (caller : Caller) (q : Query)
  | shutdown (i : ShutdownInput A F)

/-- A session starts: nothing has been asked in it. -/
def Collector.session {Caller A F : Type} (c : Collector A F) (i : StartInput) : CollectorRun Caller A F :=
  ⟨c.start i, i.world, fun _ => .idle, []⟩

namespace CollectorRun

variable {Caller A F : Type} [DecidableEq Caller] [Accum A] [Inhabited F] (H Hm : HeapLib)
  (r : CollectorRun Caller A F)

def setCollector (c : Collector A F) : CollectorRun Caller A F := { r with collector := c }

def mergePass (watermark : UInt64) : Collector A F :=
  { r.collector with merger := r.collector.merger.mergePass H r.world Hm watermark }

def serve (watermark : UInt64) (o : FlushOutside A F) : Collector A F :=
  { (r.mergePass H Hm watermark).doFlush o with flushDone := r.collector.flushRequest }

def call (caller : Caller) : CollectorRun Caller A F :=
  if r.collector.threaded then
    let gen := r.collector.flushRequest + 1
    { r with
      collector := { r.collector with flushRequest := gen }
      callers := Function.update r.callers caller (.waitDone gen) }
  else { r with callers := Function.update r.callers caller .ready }

def answer (caller : Caller) (q : Query) : CollectorRun Caller A F :=
  { r with
    callers := Function.update r.callers caller .idle
    results := r.results ++ [(caller, r.collector.answer q)] }

def step : CollectorAction Caller A F → Option (CollectorRun Caller A F)
  | .start i => if r.collector.started then none else some (r.collector.session i)
  | .failedStart mode =>
      if r.collector.started then none else some (r.setCollector { r.collector with mode := mode })
  | .drainOnce watermark =>
      if r.collector.threaded then some (r.setCollector (r.mergePass H Hm watermark)) else none
  | .flush o => if r.collector.threaded then some (r.setCollector (r.collector.doFlush o)) else none
  | .serve watermark o =>
      if r.collector.threaded ∧ r.collector.flushRequest ≠ r.collector.flushDone then
        some (r.setCollector (r.serve H Hm watermark o))
      else none
  | .call caller =>
      match r.callers caller with
      | .idle => some (r.call caller)
      | _ => none
  | .answer caller q =>
      match r.callers caller with
      | .idle => none
      | .ready => some (r.answer caller q)
      | .waitDone gen => if gen ≤ r.collector.flushDone then some (r.answer caller q) else none
  | .stop => if r.collector.threaded then some (r.setCollector r.collector.stop) else none
  | .giveUp caller q =>
      match r.callers caller with
      | .waitDone _ => if r.collector.running = false then some (r.answer caller q) else none
      | _ => none
  | .shutdown i => (r.collector.shutdown H Hm r.world i).map r.setCollector

end CollectorRun

/-- Every sequence of sessions on one Collector, each with any calls of its results. -/
def collectorSystem (Caller A F : Type) [DecidableEq Caller] [Accum A] [Inhabited F] (H Hm : HeapLib) :
    System (CollectorRun Caller A F) (CollectorAction Caller A F) where
  Init r := r.collector = .fresh ∧ (∀ caller, r.callers caller = .idle) ∧ r.results = []
  step a r := r.step H Hm a

end SlickPerfmon
