import SlickPerfmon.Library.StdHeap
import SlickPerfmon.Pairing.Stamp
import SlickPerfmon.Store.OpenMap

/-!
# `Pairer`

The state machine that turns the event stream back into spans and stage latencies. Tallies that grow by one
per event (the anomaly counters and sizes) are natural numbers; timestamps, keys and the transition count of a
span keep the width they have in the source. The accumulators of a stage are used through `Accum` only, and
the standard library's heap is any conforming one.
-/

namespace SlickPerfmon

open Library

/-- What the pairer and the reports use of an accumulator. -/
class Accum (A : Type) where
  empty : A
  add : A → UInt64 → A
  clear : A → A
  /-- `mergeInto src dst` is `src.merge_into(dst)`, with the new `dst` as its value. -/
  mergeInto : A → A → A
  count : A → Nat

/-- The settings the pairer reads. -/
structure Config where
  maxOpenSpans : UInt32 := 4096
  maxStages : UInt32 := 1024

/-- Every one of these means a number about to be read may be wrong. -/
structure PointAnomalies where
  invalid : Nat := 0
  abandoned : Nat := 0
  orphan : Nat := 0
  outOfRange : Nat := 0
deriving DecidableEq, Repr, Inhabited

namespace PointAnomalies

def any (a : PointAnomalies) : Bool :=
  a.invalid != 0 || a.abandoned != 0 || a.orphan != 0 || a.outOfRange != 0

/-- Counts accrued since a baseline. -/
def since (a b : PointAnomalies) : PointAnomalies :=
  ⟨a.invalid - b.invalid, a.abandoned - b.abandoned, a.orphan - b.orphan, a.outOfRange - b.outOfRange⟩

def incInvalid (a : PointAnomalies) : PointAnomalies := { a with invalid := a.invalid + 1 }
def incAbandoned (a : PointAnomalies) : PointAnomalies := { a with abandoned := a.abandoned + 1 }
def incOrphan (a : PointAnomalies) : PointAnomalies := { a with orphan := a.orphan + 1 }
def incOutOfRange (a : PointAnomalies) : PointAnomalies := { a with outOfRange := a.outOfRange + 1 }

end PointAnomalies

/-- One measured transition, or one point's value samples. -/
structure Stage (A : Type) where
  point : UInt32
  fromStep : UInt8
  toStep : UInt8
  interval : A
  cumulative : A

namespace Stage

variable {A : Type} [Accum A]

def fresh (p : UInt32) (fromStep toStep : UInt8) : Stage A :=
  ⟨p, fromStep, toStep, Accum.empty, Accum.empty⟩

def addSample (g : Stage A) (cycles : UInt64) : Stage A :=
  { g with interval := Accum.add g.interval cycles }

def clearInterval (g : Stage A) : Stage A := { g with interval := Accum.clear g.interval }

end Stage

structure OpenSpan where
  startTsc : UInt64
  lastTsc : UInt64
  seenTsc : UInt64
  transitions : UInt32
  lastStep : UInt8
deriving DecidableEq, Repr

/-- A span nominated for eviction by the last scan. -/
structure EvictCandidate where
  key : UInt64
  seenTsc : UInt64
deriving DecidableEq, Repr

structure Pairer (A : Type) where
  spans : OpenMap OpenSpan
  stages : OpenMap (Stage A)
  points : OpenMap PointAnomalies
  overflow : PointAnomalies
  overheadCycles : UInt64
  peakOpen : Nat
  evictQueue : List EvictCandidate
  evictNext : Nat
  evictBatch : Nat

namespace Pairer

variable {A : Type}

def reset (cfg : Config) : Pairer A :=
  let batch := cfg.maxOpenSpans / 8
  { spans := OpenMap.reset cfg.maxOpenSpans
    stages := OpenMap.reset cfg.maxStages
    points := OpenMap.reset cfg.maxStages
    overflow := {}
    overheadCycles := 0
    peakOpen := 0
    evictQueue := []
    evictNext := 0
    evictBatch := if batch = 0 then 1 else batch.toNat }

def setOverhead (P : Pairer A) (cycles : UInt64) : Pairer A := { P with overheadCycles := cycles }

def openSpanCount (P : Pairer A) : Nat := P.spans.size

/-! ## Anomalies -/

def anomaliesOf (P : Pairer A) (p : UInt32) : PointAnomalies := (P.points.find p.toUInt64).getD {}

/-- `inc` applied to the counters that the reference `anomalies(p)` designates. -/
def anomalies (P : Pairer A) (p : UInt32) (inc : PointAnomalies → PointAnomalies) : Pairer A :=
  match P.points.find p.toUInt64 with
  | some _ => { P with points := P.points.modify p.toUInt64 inc }
  | none =>
      match P.points.insert p.toUInt64 {} with
      | (points, some _) => { P with points := points.modify p.toUInt64 inc }
      -- the point table is full: fold the count into the shared bucket
      | (_, none) => { P with overflow := inc P.overflow }

/-! ## Stages -/

section Record

variable [Accum A]

/-- What `record` adds once the stamp overhead of `transitions` intervals is taken out. -/
def netCycles (P : Pairer A) (cycles : UInt64) (transitions : UInt32) : UInt64 :=
  let ov := P.overheadCycles * transitions.toUInt64
  if cycles > ov then cycles - ov else 0

def record (P : Pairer A) (p : UInt32) (fromStep toStep : UInt8) (cycles : UInt64)
    (transitions : UInt32) : Pairer A :=
  let cycles := P.netCycles cycles transitions
  let key := stageKey p fromStep toStep
  match P.stages.find key with
  | some _ => { P with stages := P.stages.modify key fun g => g.addSample cycles }
  | none =>
      match P.stages.insert key (Stage.fresh p fromStep toStep) with
      | (stages, some _) => { P with stages := stages.modify key fun g => g.addSample cycles }
      | (_, none) => P.anomalies p .incOutOfRange

def clearIntervals (P : Pairer A) : Pairer A :=
  { P with stages := P.stages.forEach fun _ g => g.clearInterval }

end Record

/-! ## Eviction -/

/-- Max-heap on `seen_tsc`: the newest of the candidates so far is at the front. -/
def newestFirst (a b : EvictCandidate) : Bool := a.seenTsc < b.seenTsc

section Evict

variable (H : HeapLib)

/-- One span of the scan; the queue goes with the number of the next heap call. -/
def refillStep (batch : Nat) (scan : Nat × List EvictCandidate) (e : UInt64 × OpenSpan) : Nat × List EvictCandidate :=
  let (n, queue) := scan
  let c : EvictCandidate := ⟨e.1, e.2.seenTsc⟩
  if queue.length < batch then (n + 1, H.pushHeap newestFirst n (queue ++ [c]))
  else
    match queue.head? with
    | some front =>
        if c.seenTsc < front.seenTsc then
          (n + 2, H.pushHeap newestFirst (n + 1) ((H.popHeap newestFirst n queue).dropLast ++ [c]))
        else (n, queue)
    | none => (n, queue)

/-- The oldest `evict_batch_` spans, oldest first. -/
def refillEvictQueue (P : Pairer A) : Pairer A :=
  let (n, queue) := P.spans.entries.foldl (refillStep H P.evictBatch) (0, [])
  { P with evictQueue := H.sortHeap newestFirst n queue.length queue, evictNext := 0 }

/-- The candidates left in the queue, until one is live and untouched since the scan. The flag says whether
one was evicted. -/
def tryCandidates (P : Pairer A) : List EvictCandidate → Pairer A × Bool
  | [] => (P, false)
  | c :: rest =>
      let P := { P with evictNext := P.evictNext + 1 }
      match P.spans.find c.key with
      | none => tryCandidates P rest
      | some sp =>
          if sp.seenTsc = c.seenTsc then
            let P := P.anomalies (spanPoint c.key) .incAbandoned
            ({ P with spans := (P.spans.erase c.key).1 }, true)
          else tryCandidates P rest

/-- One pass of `evict_oldest`; the flag says whether the function returns. -/
def evictPass (P : Pairer A) : Pairer A × Bool :=
  match P.tryCandidates (P.evictQueue.drop P.evictNext) with
  | (P, true) => (P, true)
  | (P, false) =>
      let P := P.refillEvictQueue H
      (P, P.evictQueue.isEmpty)

def evictOldest (P : Pairer A) : Pairer A :=
  match P.evictPass H with
  | (P, true) => P
  | (P, false) => (P.evictPass H).1

/-! ## Events -/

def openBegin (P : Pairer A) (key : UInt64) (s : Sample) : Pairer A :=
  let fresh : OpenSpan := ⟨s.timestamp, s.timestamp, s.timestamp, 0, kBeginStep⟩
  match P.spans.find key with
  | some _ =>
      let P := P.anomalies s.point .incAbandoned
      { P with spans := P.spans.modify key fun _ => fresh }
  | none =>
      let P :=
        match P.spans.insert key fresh with
        | (spans, some _) => { P with spans := spans }
        | (_, none) =>
            let P := P.evictOldest H
            { P with spans := (P.spans.insert key fresh).1 }
      { P with peakOpen := if P.spans.size > P.peakOpen then P.spans.size else P.peakOpen }

variable [Accum A]

def onEvent (P : Pairer A) (s : Sample) : Pairer A :=
  let st := stepOf s.event
  if st = kValueStep then P.record s.point kValueStep kValueStep s.timestamp 0
  else
    let key := spanKey s.point (seqOf s.event)
    if st = kBeginStep then P.openBegin H key s
    else
      match P.spans.find key with
      | none => P.anomalies s.point .incOrphan
      | some sp =>
          if s.timestamp < sp.lastTsc then
            -- the clock moved backwards inside the span: discard the whole span
            let P := P.anomalies s.point .incInvalid
            { P with spans := (P.spans.erase key).1 }
          else if st = kEndStep then
            let P :=
              if sp.lastStep ≠ kBeginStep then
                P.record s.point sp.lastStep st (s.timestamp - sp.lastTsc) 1
              else P
            let P := P.record s.point kBeginStep kBeginStep (s.timestamp - sp.startTsc) (sp.transitions + 1)
            { P with spans := (P.spans.erase key).1 }
          else
            let P := P.record s.point sp.lastStep st (s.timestamp - sp.lastTsc) 1
            { P with
              spans := P.spans.modify key fun sp =>
                { sp with
                  lastTsc := s.timestamp, seenTsc := s.timestamp, lastStep := st,
                  transitions := sp.transitions + 1 } }

end Evict

def pairsCleanly (P : Pairer A) (s : Sample) : Bool :=
  (stepOf s.event == kBeginStep) != (P.spans.find (spanKey s.point (seqOf s.event))).isSome

/-! ## Sweeping -/

/-- The predicate of `sweep`, with the pairer whose counters it bumps. -/
def sweepPred (nowTsc maxAgeCycles : UInt64) (P : Pairer A) (key : UInt64) (sp : OpenSpan) :
    Bool × Pairer A :=
  if nowTsc > sp.seenTsc ∧ nowTsc - sp.seenTsc > maxAgeCycles then
    (true, P.anomalies (spanPoint key) .incAbandoned)
  else (false, P)

def sweep (P : Pairer A) (nowTsc maxAgeCycles : UInt64) : Pairer A × Nat :=
  if maxAgeCycles = 0 then (P, 0)
  else
    match P.spans.eraseIf (sweepPred nowTsc maxAgeCycles) P with
    | (spans, P, removed) => ({ P with spans := spans }, removed)

def abandonAll (P : Pairer A) : Pairer A × Nat :=
  let n := P.spans.entries.length
  let P := P.spans.entries.foldl (fun P e => P.anomalies (spanPoint e.1) .incAbandoned) P
  ({ P with spans := P.spans.clear, evictQueue := [], evictNext := 0 }, n)

end Pairer

end SlickPerfmon
