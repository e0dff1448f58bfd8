import SlickPerfmon.Merge.MergePass

/-!
# The loops of a pass

`next_stamp` and `merge_pass` with loops that nothing bounds, as they are written: `limit` is how many rounds of each
loop are watched, and the result is `none` if one of them has not ended by then. What becomes of the samples of a ring
is recorded step by step.
-/

namespace SlickPerfmon

open Library

/-- A call of `ring_read`, with the cursor before it and what it added to `ring_lost_`, or a call of `on_event` for the
sample at this index of the ring. -/
inductive RingStep
  | read (ring cursor lost : Nat)
  | hand (ring index : Nat)
deriving DecidableEq, Repr

/-- The steps of `on_event` for `n` samples of a source from this index on. -/
def handSteps (ring : Option Nat) (index n : Nat) : List RingStep :=
  match ring with
  | none => []
  | some r => (List.range' index n).map (RingStep.hand r)

namespace Merger

variable {A : Type} [Accum A] (H : HeapLib) (env : World)

/-! ## One source -/

def refillWithin (r stop : Nat) :
    Nat → Merger A → List RingStep → Option (Merger A × List RingStep × List Sample)
  | 0, _, _ => none
  | limit + 1, m, steps =>
      let before := m.ringCursor r
      let room := if stop > before then min (stop - before) kMergeChunk else 0
      let res := ringRead (env.log r) env.mask (env.head m.time r) (env.head (m.time + 1) r) before room
      let m :=
        { m with
          time := m.time + 2
          ringCursor := Function.update m.ringCursor r res.cursor
          ringLost := m.ringLost + res.lost
          reads := m.reads ++ [⟨r, m.time, before⟩] }
      let steps := steps ++ [.read r before res.lost]
      if res.batch ≠ [] ∨ res.cursor = before then some (m, steps, res.batch)
      else refillWithin r stop limit m steps

def nextChunkWithin (limit r : Nat) (m : Merger A) (steps : List RingStep) (src : MergeSource) :
    Option (Merger A × List RingStep × MergeSource × List Sample) :=
  let stop := src.stop.getD (env.head m.time r)
  let m :=
    { m with
      time := if src.stop.isSome then m.time else m.time + 1
      ringCursor := Function.update m.ringCursor r (src.base + src.pos)
      ringWaitTs := Function.update m.ringWaitTs r 0 }
  match refillWithin env r stop limit m steps with
  | none => none
  | some (m, steps, batch) => some (m, steps, { src with stop := some stop }, batch)

/-- `limit` bounds the reads of a refill, the argument after the watermark the rounds of the loop itself. -/
def nextStampWithin (limit : Nat) (watermark : UInt64) :
    Nat → Merger A → List RingStep → MergeSource → Option (Merger A × List RingStep × MergeSource × Bool)
  | 0, _, _, _ => none
  | rounds + 1, m, steps, src =>
      match passValues H src.ring (src.data.drop src.pos) m src.pos with
      | (m, pos) =>
          let steps := steps ++ handSteps src.ring (src.base + src.pos) (pos - src.pos)
          let src := { src with pos := pos }
          match src.data[pos]?, src.ring with
          | some s, none => some (m, steps, src, s.timestamp < watermark)
          | none, none => some (m, steps, src, false)
          | some s, some r =>
              if s.timestamp < watermark then some (m, steps, src, true)
              else
                some
                  ({ m with
                      ringCursor := Function.update m.ringCursor r (src.base + pos)
                      ringWaitTs := Function.update m.ringWaitTs r s.timestamp }, steps, src, false)
          | none, some r =>
              match nextChunkWithin env limit r m steps src with
              | none => none
              | some (m, steps, src, []) => some (m, steps, src, false)
              | some (m, steps, src, batch) =>
                  nextStampWithin limit watermark rounds m steps
                    { src with data := batch, pos := 0, base := m.ringCursor r }

def feedWithin (limit : Nat) (watermark : UInt64) (m : Merger A) (steps : List RingStep) (src : MergeSource) :
    Option (Merger A × List RingStep × MergeSource × Bool) :=
  match src.data[src.pos]? with
  | some s =>
      nextStampWithin H env limit watermark limit (m.onEvent H src.ring s)
        (steps ++ handSteps src.ring (src.base + src.pos) 1) { src with pos := src.pos + 1 }
  | none => some (m, steps, src, false)

/-! ## The heap -/

def mergeLoopWithin (Hm : HeapLib) (limit : Nat) (watermark : UInt64) :
    Nat → Nat → Merger A → List RingStep → List MergeSource → List Nat →
      Option (Merger A × List RingStep × List MergeSource)
  | 0, _, _, _, _, _ => none
  | rounds + 1, k, m, steps, sources, heap =>
      let popped := preferCleanTie m.pairer sources (Hm.popHeap (later sources) (2 * k + 1) heap)
      match popped.getLast? with
      | none => some (m, steps, sources)
      | some i =>
          match sources[i]? with
          | none => some (m, steps, sources)
          | some src =>
              match feedWithin H env limit watermark m steps src with
              | none => none
              | some (m, steps, src, more) =>
                  let sources := sources.set i src
                  mergeLoopWithin Hm limit watermark rounds (k + 1) m steps sources
                    (if more then Hm.pushHeap (later sources) (2 * k + 2) popped else popped.dropLast)

def drainOnlyWithin (limit : Nat) (watermark : UInt64) :
    Nat → Merger A → List RingStep → MergeSource → Option (Merger A × List RingStep × MergeSource)
  | 0, _, _, _ => none
  | rounds + 1, m, steps, src =>
      match feedWithin H env limit watermark m steps src with
      | none => none
      | some (m, steps, src, true) => drainOnlyWithin limit watermark rounds m steps src
      | some (m, steps, src, false) => some (m, steps, src)

/-! ## A pass -/

def mergeSourcesWithin (Hm : HeapLib) (limit : Nat) (watermark : UInt64) (m : Merger A) (steps : List RingStep)
    (sources : List MergeSource) : Option (Merger A × List RingStep × List MergeSource) :=
  match sources with
  | [] => some (m, steps, [])
  | [src] =>
      match drainOnlyWithin H env limit watermark limit m steps src with
      | none => none
      | some (m, steps, src) => some (m, steps, [src])
  | _ =>
      mergeLoopWithin H env Hm limit watermark limit 0 m steps sources
        (Hm.makeHeap (later sources) 0 (List.range sources.length))

def ringSourcesWithin (limit : Nat) (watermark : UInt64) :
    List Nat → Merger A → List RingStep → List MergeSource → Option (Merger A × List RingStep × List MergeSource)
  | [], m, steps, sources => some (m, steps, sources)
  | r :: rest, m, steps, sources =>
      if m.ringWaitTs r ≥ watermark then ringSourcesWithin limit watermark rest m steps sources
      else
        match nextStampWithin H env limit watermark limit m steps ⟨[], 0, m.ringCursor r, none, some r⟩ with
        | none => none
        | some (m, steps, src, true) => ringSourcesWithin limit watermark rest m steps (sources ++ [src])
        | some (m, steps, _, false) => ringSourcesWithin limit watermark rest m steps sources

def mergePassWithin (Hm : HeapLib) (limit : Nat) (watermark : UInt64) (m : Merger A) :
    Option (Merger A × List RingStep) :=
  match m.readShared H env with
  | (m, any) =>
      match ringSourcesWithin H env limit watermark (List.range env.rings) { m with progressed := any } []
          (m.stageSource watermark) with
      | none => none
      | some (m, steps, sources) =>
          let m := { m with progressed := m.progressed || !sources.isEmpty }
          match mergeSourcesWithin H env Hm limit watermark m steps sources with
          | none => none
          | some (m, steps, sources) => some (sources.foldl eraseStage m, steps)

end Merger

end SlickPerfmon
