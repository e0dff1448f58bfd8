import SlickPerfmon.Pairing.Pairer
import SlickPerfmon.Ring.ThreadRing

/-!
# The merge

`read_shared`, `next_stamp` and `merge_pass` of the Collector. What the producers and the clock do meanwhile is
a `World`: the `t`-th thing the collector looks up finds the world at time `t`. Indices into a ring count the
samples ever published to it and are natural numbers; a reservation of the shared ring is one sample, and its
cursor counts reservations. Freeing a drained ring touches its owner word only; the ring table has that.
-/

namespace SlickPerfmon

open Library

/-- The rings as the collector finds them. `read t c` is how many slots `read()` hands out at cursor `c`, none
if the slot there is not published; `reserved t` is `initial_reading_index()`. -/
structure World where
  rings : Nat
  mask : Nat
  log : Nat → Nat → Sample
  head : Nat → Nat → Nat
  slot : Nat → Sample
  read : Nat → Nat → Nat
  reserved : Nat → Nat
  now : Nat → Nat
  queueCapacity : Nat
  stalledSampleTimeout : Nat
  two_le_queueCapacity : 2 ≤ queueCapacity

/-- One input to the merge: the chunk being consumed from a ring, or the staged shared-ring stamps. `ring` is
`none` for `kSharedSource`, `stop` is `none` for `kNoStop`. -/
structure MergeSource where
  data : List Sample
  pos : Nat
  base : Nat
  stop : Option Nat
  ring : Option Nat
deriving DecidableEq, Repr

/-- A call of `on_event`: where the sample came from, and whether it would pair cleanly when it was made. -/
structure Handed where
  ring : Option Nat
  sample : Sample
  clean : Bool
deriving DecidableEq, Repr

/-- A call of `ring_read`: it loads the head at `time` and, after the copy, at the next look-up. -/
structure RingReadCall where
  ring : Nat
  time : Nat
  cursor : Nat
deriving DecidableEq, Repr

/-- The part of the Collector a pass reads and writes, with its local `progressed`. `time`, `handed`, `taken`, `skipped`
and `reads` only record: how much was looked up, the calls of `on_event`, the slots the shared ring handed out and those
stepped over, and the calls of `ring_read`. -/
structure Merger (A : Type) where
  pairer : Pairer A
  cursor : Nat
  sharedStage : List Sample
  stalledSince : Option Nat
  stalledSlots : Nat
  ringCursor : Nat → Nat
  ringWaitTs : Nat → UInt64
  ringLost : Nat
  progressed : Bool
  time : Nat
  handed : List Handed
  taken : List Nat
  skipped : List Nat
  reads : List RingReadCall

def kMergeChunk : Nat := 256

namespace Merger

variable {A : Type} [Accum A] (H : HeapLib) (env : World) (m : Merger A)

def onEvent (ring : Option Nat) (s : Sample) : Merger A :=
  { m with
    pairer := m.pairer.onEvent H s
    handed := m.handed ++ [⟨ring, s, m.pairer.pairsCleanly s⟩] }

/-! ## The shared ring -/

/-- `push_back` and the swaps that follow, from the back. -/
def stageInsert (s : Sample) : List Sample → List Sample
  | [] => [s]
  | x :: stage => if x.timestamp > s.timestamp then x :: stageInsert s stage else s :: x :: stage

def takeShared (s : Sample) : Merger A :=
  if !s.isStamp || env.rings = 0 then m.onEvent H none s
  else { m with sharedStage := (stageInsert s m.sharedStage.reverse).reverse }

def readSharedOnce : Merger A × Bool :=
  let n := env.read m.time m.cursor
  let c := m.cursor
  let m := { m with time := m.time + 1, cursor := c + n, taken := m.taken ++ List.range' c n }
  if n = 0 then (m, false)
  else (((List.range' c n).map env.slot).foldl (takeShared H env) m, true)

/-- Step over the unpublished reservation at the cursor and count it. -/
def skipHole : Merger A :=
  { m with cursor := m.cursor + 1, stalledSlots := m.stalledSlots + 1, skipped := m.skipped ++ [m.cursor] }

def checkStall : Merger A :=
  let head := env.reserved m.time
  let m := { m with time := m.time + 1 }
  if head ≤ m.cursor then { m with stalledSince := none }
  else
    let now := env.now m.time
    let m := { m with time := m.time + 1 }
    match m.stalledSince with
    | none => { m with stalledSince := some now }
    | some since =>
        if now - since < env.stalledSampleTimeout then m else { m.skipHole with stalledSince := none }

/-- At most `n` reads. -/
def readSharedLoop : Nat → Merger A → Bool → Merger A × Bool
  | 0, m, any => (m, any)
  | n + 1, m, any =>
      match m.readSharedOnce H env with
      | (m, true) => readSharedLoop n m true
      | (m, false) => (m, any)

def readShared : Merger A × Bool :=
  match readSharedLoop H env env.queueCapacity m false with
  | (m, true) => ({ m with stalledSince := none }, true)
  | (m, false) => (m.checkStall env, false)

/-! ## One source -/

/-- The values in front of the next stamp go straight to the pairer. -/
def passValues (ring : Option Nat) : List Sample → Merger A → Nat → Merger A × Nat
  | [], m, pos => (m, pos)
  | s :: rest, m, pos =>
      if s.isStamp then (m, pos)
      else passValues ring rest { m.onEvent H ring s with progressed := true } (pos + 1)

/-- Reads until there is a batch or nothing new: a read whose samples were all overwritten is repeated. -/
def refill (r stop : Nat) : Nat → Merger A → Merger A × List Sample
  | 0, m => (m, [])
  | fuel + 1, m =>
      let before := m.ringCursor r
      let room := if stop > before then min (stop - before) kMergeChunk else 0
      let res := ringRead (env.log r) env.mask (env.head m.time r) (env.head (m.time + 1) r) before room
      let m :=
        { m with
          time := m.time + 2
          ringCursor := Function.update m.ringCursor r res.cursor
          ringLost := m.ringLost + res.lost
          reads := m.reads ++ [⟨r, m.time, before⟩] }
      if res.batch ≠ [] ∨ res.cursor = before then (m, res.batch) else refill r stop fuel m

/-- The chunk is used up: its ring is read again, no further than the head as this pass first found it. -/
def nextChunk (r : Nat) (src : MergeSource) : Merger A × MergeSource × List Sample :=
  let stop := src.stop.getD (env.head m.time r)
  let m :=
    { m with
      time := if src.stop.isSome then m.time else m.time + 1
      ringCursor := Function.update m.ringCursor r (src.base + src.pos)
      ringWaitTs := Function.update m.ringWaitTs r 0 }
  match refill env r stop (stop - m.ringCursor r + 1) m with
  | (m, batch) => (m, { src with stop := some stop }, batch)

/-- The loop of `next_stamp`; the fuel bounds the chunks it reads. -/
def nextStampLoop (watermark : UInt64) : Nat → Merger A → MergeSource → Merger A × MergeSource × Bool
  | 0, m, src => (m, src, false)
  | fuel + 1, m, src =>
      match passValues H src.ring (src.data.drop src.pos) m src.pos with
      | (m, pos) =>
          let src := { src with pos := pos }
          match src.data[pos]?, src.ring with
          | some s, none => (m, src, s.timestamp < watermark)
          | none, none => (m, src, false)
          | some s, some r =>
              if s.timestamp < watermark then (m, src, true)
              else
                ({ m with
                    ringCursor := Function.update m.ringCursor r (src.base + pos)
                    ringWaitTs := Function.update m.ringWaitTs r s.timestamp }, src, false)
          | none, some r =>
              match m.nextChunk env r src with
              | (m, src, []) => (m, src, false)
              | (m, src, batch) =>
                  nextStampLoop watermark fuel m { src with data := batch, pos := 0, base := m.ringCursor r }

def nextStamp (watermark : UInt64) (src : MergeSource) : Merger A × MergeSource × Bool :=
  let reach :=
    match src.ring with
    | none => src.base
    | some r => src.stop.getD (env.head m.time r)
  nextStampLoop H env watermark (reach - src.base + 2) m src

/-! ## The heap -/

def sourceHead (sources : List MergeSource) (i : Nat) : Sample :=
  ((sources[i]?.bind fun src => src.data[src.pos]?)).getD ⟨0, 0, 0⟩

/-- The comparator: a min-heap on each source's next timestamp. -/
def later (sources : List MergeSource) (a b : Nat) : Bool :=
  (sourceHead sources a).timestamp > (sourceHead sources b).timestamp

/-- On a timestamp tie, move a stamp that pairs cleanly to the back of the heap, where the earliest stamp is. -/
def preferCleanTie (P : Pairer A) (sources : List MergeSource) (heap : List Nat) : List Nat :=
  match heap.getLast?, heap.dropLast with
  | some a, first :: rest =>
      if (sourceHead sources first).timestamp ≠ (sourceHead sources a).timestamp ∨
          P.pairsCleanly (sourceHead sources a) then heap
      else
        match (first :: rest).findIdx? fun b =>
            (sourceHead sources b).timestamp = (sourceHead sources a).timestamp ∧
              P.pairsCleanly (sourceHead sources b) with
        | some i => ((first :: rest).set i a) ++ [(first :: rest).getD i a]
        | none => heap
  | _, _ => heap

/-- Hand over the next stamp of a source and move the source on. -/
def feed (watermark : UInt64) (src : MergeSource) : Merger A × MergeSource × Bool :=
  match src.data[src.pos]? with
  | some s => nextStamp H env (m.onEvent H src.ring s) watermark { src with pos := src.pos + 1 }
  | none => (m, src, false)

/-- The loop over the heap; `k` counts its rounds, and the fuel bounds the stamps it feeds. -/
def mergeLoop (Hm : HeapLib) (watermark : UInt64) :
    Nat → Nat → Merger A → List MergeSource → List Nat → Merger A × List MergeSource
  | 0, _, m, sources, _ => (m, sources)
  | fuel + 1, k, m, sources, heap =>
      let popped := preferCleanTie m.pairer sources (Hm.popHeap (later sources) (2 * k + 1) heap)
      match popped.getLast? with
      | none => (m, sources)
      | some i =>
          match sources[i]? with
          | none => (m, sources)
          | some src =>
              match m.feed H env watermark src with
              | (m, src, more) =>
                  let sources := sources.set i src
                  mergeLoop Hm watermark fuel (k + 1) m sources
                    (if more then Hm.pushHeap (later sources) (2 * k + 2) popped else popped.dropLast)

/-- The `do … while` of a pass with one source. -/
def drainOnly (watermark : UInt64) : Nat → Merger A → MergeSource → Merger A × MergeSource
  | 0, m, src => (m, src)
  | fuel + 1, m, src =>
      match m.feed H env watermark src with
      | (m, src, true) => drainOnly watermark fuel m src
      | (m, src, false) => (m, src)

/-! ## A pass -/

/-- At most this many samples remain in a source. -/
def remaining (src : MergeSource) : Nat := src.data.length + (src.stop.getD 0 - src.base)

def mergeSources (Hm : HeapLib) (watermark : UInt64) (sources : List MergeSource) : Merger A × List MergeSource :=
  match sources with
  | [] => (m, [])
  | [src] =>
      match drainOnly H env watermark (remaining src) m src with
      | (m, src) => (m, [src])
  | _ =>
      mergeLoop H env Hm watermark (sources.map remaining).sum 0 m sources
        (Hm.makeHeap (later sources) 0 (List.range sources.length))

/-- The staged stamps below the watermark; the stage is in timestamp order. -/
def stageSource (watermark : UInt64) : List MergeSource :=
  match m.sharedStage.takeWhile fun s => s.timestamp < watermark with
  | [] => []
  | data => [⟨data, 0, 0, none, none⟩]

/-- The rings that have a stamp below the watermark. -/
def ringSources (watermark : UInt64) : List Nat → Merger A → List MergeSource → Merger A × List MergeSource
  | [], m, sources => (m, sources)
  | r :: rest, m, sources =>
      -- still waiting on a stamp too young to pair: leave the ring alone
      if m.ringWaitTs r ≥ watermark then ringSources watermark rest m sources
      else
        match m.nextStamp H env watermark ⟨[], 0, m.ringCursor r, none, some r⟩ with
        | (m, src, true) => ringSources watermark rest m (sources ++ [src])
        | (m, _, false) => ringSources watermark rest m sources

/-- What was consumed of the stage leaves it. -/
def eraseStage (src : MergeSource) : Merger A :=
  match src.ring with
  | none => { m with sharedStage := m.sharedStage.drop src.pos, progressed := true }
  | some _ => m

/-- The flag it returns is `progressed`. -/
def mergePass (Hm : HeapLib) (watermark : UInt64) : Merger A :=
  match m.readShared H env with
  | (m, any) =>
      match ringSources H env watermark (List.range env.rings) { m with progressed := any }
          (m.stageSource watermark) with
      | (m, sources) =>
          let m := { m with progressed := m.progressed || !sources.isEmpty }
          match m.mergeSources H env Hm watermark sources with
          | (m, sources) => sources.foldl eraseStage m

end Merger

/-! ## Laps -/

/-- The producer has not lapped the cursor at either load of the head: a ring keeps the newest `mask` samples. -/
def RingReadCall.Unlapped (env : World) (x : RingReadCall) : Prop :=
  env.head x.time x.ring ≤ x.cursor + env.mask ∧ env.head (x.time + 1) x.ring ≤ x.cursor + env.mask

/-- No ring was lapped at a read from `m` to `m'`. -/
def Unlapped {A : Type} (env : World) (m m' : Merger A) : Prop :=
  ∀ x ∈ m'.reads.drop m.reads.length, x.Unlapped env

instance (env : World) (x : RingReadCall) : Decidable (x.Unlapped env) :=
  inferInstanceAs (Decidable (_ ∧ _))

instance {A : Type} (env : World) (m m' : Merger A) : Decidable (Unlapped env m m') :=
  inferInstanceAs (Decidable (∀ x ∈ m'.reads.drop m.reads.length, x.Unlapped env))

end SlickPerfmon
