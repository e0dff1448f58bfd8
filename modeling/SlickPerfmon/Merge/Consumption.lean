import SlickPerfmon.Merge.Lemmas.LappedPass
import SlickPerfmon.Merge.Order

/-!
# A ring is consumed once, and a pass ends

Whatever the producers do meanwhile, a pass ends and hands over no more of a ring than was published when it first
looked. Over any sequence of passes each index of a ring up to its cursor was handed over or counted as lost, and once.
-/

namespace SlickPerfmon

open Library

section Consumption

variable {A : Type} [Accum A] (H : HeapLib) (env : World)

/-! ## A pass ends -/

/-- The loops of a pass end, however long they are watched from some `n` on, and end with what the pass is defined to
leave. -/
theorem mergePass_ends (Hm : HeapLib) (m : Merger A) (watermark : UInt64) :
    (∃ n steps, ∀ limit, n ≤ limit →
      m.mergePassWithin H env Hm limit watermark = some (m.mergePass H env Hm watermark, steps)) ∧
    ∀ r, ∃ samples, ringSamples r (m.mergePass H env Hm watermark) = ringSamples r m ++ samples ∧
      samples.length ≤ m.firstHead H env watermark r - m.ringCursor r := by
  obtain ⟨steps, hpass, n, hwithin⟩ := mergePass_lossy H env Hm m watermark
  refine ⟨⟨n, steps, hwithin⟩, fun r => ⟨_, (hpass.rings r).samples, ?_⟩⟩
  rw [List.length_map]
  exact (hpass.rings r).left

/-! ## Runs of passes -/

def Merger.callsWithin (limit : Nat) :
    List (MergeCall A) → Merger A → List RingStep → Option (Merger A × List RingStep)
  | [], m, steps => some (m, steps)
  | .pass watermark Hm :: cs, m, steps =>
      match m.mergePassWithin H env Hm limit watermark with
      | none => none
      | some (m, new) => callsWithin limit cs m (steps ++ new)
  | .report P :: cs, m, steps => callsWithin limit cs { m with pairer := P } steps

/-- How much of ring `r` these steps add to `ring_lost_`. -/
def lostOf (r : Nat) (steps : List RingStep) : Nat := ((steps.filter fun s => s.ring = r).map RingStep.lost).sum

/-- Ring `r` as a run from `m₀` to `m` consumed it, by these steps: each index between the two cursors was handed over
or lost, once, and those handed over in ascending order. -/
structure ConsumedOnce (m₀ m : Merger A) (steps : List RingStep) (r : Nat) : Prop where
  samples : ringSamples r m = ringSamples r m₀ ++ (handedIndices r steps).map (env.log r)
  counted : (handedIndices r steps).length + lostOf r steps = m.ringCursor r - m₀.ringCursor r
  ascending : (handedIndices r steps).Pairwise (· < ·)
  once : (handedIndices r steps ++ lostIndices r steps).Nodup
  covers : ∀ i, i ∈ handedIndices r steps ∨ i ∈ lostIndices r steps ↔ m₀.ringCursor r ≤ i ∧ i < m.ringCursor r
  tiles : Tiles r steps (m₀.ringCursor r) (m.ringCursor r)
  forward : m₀.ringCursor r ≤ m.ringCursor r
  published : m.ringCursor r ≤ env.head m.time r

theorem length_lostIndices (r : Nat) (steps : List RingStep) : (lostIndices r steps).length = lostOf r steps := by
  have hone : ∀ s : RingStep, s.overwritten.length = s.lost := by
    intro s
    cases s with
    | read _ _ _ => exact List.length_range'
    | hand _ _ => rfl
  rw [lostIndices, List.length_flatMap, lostOf]
  exact congrArg List.sum (List.map_congr_left fun s _ => hone s)

theorem calls_lossy (cs : List (MergeCall A)) (m : Merger A) :
    ∃ bound steps, Consumes env m (m.calls H env cs) bound steps ∧
      ∃ n, ∀ limit log, n ≤ limit → Merger.callsWithin H env limit cs m log = some (m.calls H env cs, log ++ steps) := by
  induction cs generalizing m with
  | nil =>
      refine ⟨_, [], (Aside.refl m).consumes, 0, fun limit log _ => ?_⟩
      rw [List.append_nil]
      rfl
  | cons c cs ih =>
      cases c with
      | pass watermark Hm =>
          obtain ⟨steps, hpass, n, hwithin⟩ := mergePass_lossy H env Hm m watermark
          obtain ⟨bound, steps', hrest, n', hwithin'⟩ := ih (m.mergePass H env Hm watermark)
          refine ⟨_, steps ++ steps', hpass.trans hrest, n + n', fun limit log hlimit => ?_⟩
          rw [Merger.callsWithin]
          simp only [hwithin limit (by omega)]
          rw [hwithin' limit _ (by omega), List.append_assoc]
          rfl
      | report P =>
          have hquiet : Aside m { m with pairer := P } := ⟨⟨rfl, rfl, rfl⟩, fun _ => rfl, Nat.le_refl _⟩
          obtain ⟨bound, steps, hrest, n, hwithin⟩ := ih { m with pairer := P }
          exact ⟨_, [] ++ steps, hquiet.consumes.trans hrest, n, fun limit log hlimit => hwithin limit log hlimit⟩

/-- Over any sequence of passes, from a start with no cursor past its head. -/
theorem rings_consumed_once (hheads : ∀ r t t', t ≤ t' → env.head t r ≤ env.head t' r) (m₀ : Merger A)
    (hstart : ∀ r, r < env.rings → m₀.ringCursor r ≤ env.head m₀.time r) (cs : List (MergeCall A)) :
    ∃ steps, (∃ n, ∀ limit, n ≤ limit →
        Merger.callsWithin H env limit cs m₀ [] = some (m₀.calls H env cs, steps)) ∧
      (m₀.calls H env cs).ringLost = m₀.ringLost + addedLost steps ∧
      (∀ r, r < env.rings → ConsumedOnce env m₀ (m₀.calls H env cs) steps r) ∧
      ∀ r c, (m₀.calls H env cs).ringCursor r ≤ (m₀.calls H env (cs ++ [c])).ringCursor r := by
  obtain ⟨bound, steps, hrun, n, hwithin⟩ := calls_lossy H env cs m₀
  refine ⟨steps, ⟨n, fun limit hlimit => hwithin limit [] hlimit⟩, hrun.added, fun r hr => ?_, fun r c => ?_⟩
  · have hown := hrun.rings r
    have hsplit := hown.tiles.split
    exact
      { samples := hown.samples
        counted := by rw [← length_lostIndices]; exact hsplit.count
        ascending := hsplit.ascending
        once := hsplit.nodup
        covers := fun i => by
          rw [← List.mem_append, hsplit.perm.mem_iff, List.mem_range'_1]
          have := hsplit.le
          omega
        tiles := hown.tiles
        forward := hsplit.le
        published := hrun.heads r (hheads r) (hstart r hr) }
  · obtain ⟨bound', steps', hnext, -⟩ := calls_lossy H env [c] (m₀.calls H env cs)
    have hle := (hnext.rings r).tiles.split.le
    rwa [Merger.calls, Merger.calls, ← List.foldl_append] at hle

/-! ## A ring that is lapped -/

/-- The producer publishes a sample between any two looks of the collector, into a ring of four. -/
def lappedWorld : World where
  rings := 1
  mask := 3
  log _ i := ⟨UInt64.ofNat i, 1, makeEvent kBeginStep 5⟩
  head t _ := 4 + t
  slot _ := ⟨0, 0, 0⟩
  read _ _ := 0
  reserved _ := 0
  now t := t
  queueCapacity := 128
  stalledSampleTimeout := 5
  two_le_queueCapacity := by decide

/-- The first pass copies a chunk and stops in front of it; by the second pass five of its ring's samples more are
overwritten. -/
theorem rings_consumed_once_lapped :
    let m₀ := startedMerger ⟨2, 4⟩
    let m := m₀.calls sortingLib lappedWorld [.pass 4 sortingLib, .pass 40 sortingLib]
    ∃ steps, ConsumedOnce lappedWorld m₀ m steps 0 ∧ (ringSamples 0 m).length = 2 ∧ lostOf 0 steps = 10 := by
  intro m₀ m
  obtain ⟨steps, -, -, hrings, -⟩ := rings_consumed_once sortingLib lappedWorld
    (fun _ _ _ hle => Nat.add_le_add_left hle 4) m₀ (fun _ _ => Nat.zero_le _)
    [.pass 4 sortingLib, .pass 40 sortingLib]
  have hown : ConsumedOnce lappedWorld m₀ m steps 0 := hrings 0 (by decide)
  have hlen : (ringSamples 0 m).length = 2 := by decide
  have hcursor : m.ringCursor 0 = 12 := by decide
  refine ⟨steps, hown, hlen, ?_⟩
  have hcount := hown.counted
  have hsamples := congrArg List.length hown.samples
  rw [hlen, show ringSamples 0 m₀ = [] from rfl, List.nil_append, List.length_map] at hsamples
  rw [← hsamples, hcursor, show m₀.ringCursor 0 = 0 from rfl] at hcount
  omega

end Consumption

end SlickPerfmon
