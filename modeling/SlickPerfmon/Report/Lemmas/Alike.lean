import SlickPerfmon.Report.Lemmas.Rows

/-!
# The vector that is refilled

The rows of a flush do not depend on those that an earlier flush left in the vector.
-/

namespace SlickPerfmon

open Library

variable {A F : Type}

/-- Two vectors filled so far with the same rows, whatever is behind them. -/
structure Build.Alike (b b' : Build F) : Prop where
  count : b.n = b'.n
  fits : b.n ≤ b.out.length
  fits' : b'.n ≤ b'.out.length
  rows : b.rows = b'.rows
  rowPoints : b.rowPoints = b'.rowPoints
  baseline : b.baseline = b'.baseline

namespace Build.Alike

variable {b b' : Build F}

theorem putRow (h : b.Alike b') (r : StageReport F) : (b.putRow r).Alike (b'.putRow r) := by
  obtain ⟨hrows, hfits⟩ := Build.rows_putRow h.fits r
  obtain ⟨hrows', hfits'⟩ := Build.rows_putRow h.fits' r
  exact
    { count := congrArg (· + 1) h.count
      fits := hfits
      fits' := hfits'
      rows := by rw [hrows, hrows', h.rows]
      rowPoints := h.rowPoints
      baseline := h.baseline }

theorem modify (h : b.Alike b') (i : Nat) (f : StageReport F → StageReport F) :
    Build.Alike { b with out := b.out.modify i f } { b' with out := b'.out.modify i f } where
  count := h.count
  fits := by rw [List.length_modify]; exact h.fits
  fits' := by rw [List.length_modify]; exact h.fits'
  rows := by
    have hrows := h.rows
    simp only [Build.rows] at hrows ⊢
    rw [List.take_modify, List.take_modify, hrows]
  rowPoints := h.rowPoints
  baseline := h.baseline

theorem setBaseline (h : b.Alike b') (baseline : OpenMap PointAnomalies) :
    Build.Alike { b with baseline := baseline } { b' with baseline := baseline } :=
  { h with baseline := rfl }

end Build.Alike

namespace Reporter

variable [Accum A] (env : ReportEnv A F) (st : Reporter A F) (newLosses newStalled : Nat) {b b' : Build F}

theorem stageStep_alike (h : b.Alike b') (e : UInt64 × Stage A) :
    (st.stageStep env newLosses newStalled b e).Alike (st.stageStep env newLosses newStalled b' e) := by
  have hput := h.putRow (st.stageRow env newLosses newStalled e.2)
  refine { hput with rowPoints := ?_ }
  simp only [stageStep, hput.rowPoints, hput.count]

theorem pointStep_alike (h : b.Alike b') (e : UInt64 × PointAnomalies) :
    (st.pointStep env newLosses newStalled b e).Alike (st.pointStep env newLosses newStalled b' e) := by
  obtain ⟨out, n, rowPoints, baseline⟩ := b
  obtain ⟨out', n', rowPoints', baseline'⟩ := b'
  obtain rfl : n = n' := h.count
  obtain rfl : rowPoints = rowPoints' := h.rowPoints
  obtain rfl : baseline = baseline' := h.baseline
  have hmoved := h.setBaseline (moveBaseline baseline e.1.toUInt32 e.2)
  unfold pointStep
  simp only
  cases e.2.any with
  | false => exact h
  | true =>
      cases (e.2.since (baselineOf baseline e.1.toUInt32)).any with
      | false =>
          simp only [if_true, Bool.false_eq_true, if_false, Bool.not_false, Bool.or_true]
          cases rowPoints.find e.1.toUInt32.toUInt64 with
          | none => exact h.putRow _
          | some ref => exact h
      | true =>
          simp only [if_true, Bool.not_true, Bool.or_false]
          cases rowPoints.find e.1.toUInt32.toUInt64 with
          | none => exact hmoved.putRow _
          | some ref =>
              simp only
              cases ref.hasSamples with
              | true => exact hmoved
              | false => exact hmoved.modify ref.carrier _

theorem overflowStep_alike (h : b.Alike b') :
    (st.overflowStep env newLosses newStalled b).Alike (st.overflowStep env newLosses newStalled b') := by
  unfold overflowStep
  simp only
  split
  · exact h.putRow _
  · exact h

theorem foldl_alike {E : Type} {step : Build F → E → Build F}
    (hstep : ∀ {b b' : Build F}, b.Alike b' → ∀ e, (step b e).Alike (step b' e)) (es : List E) (h : b.Alike b') :
    (es.foldl step b).Alike (es.foldl step b') := by
  induction es generalizing b b' with
  | nil => exact h
  | cons e es ih => exact ih (hstep h e)

/-- What a flush builds does not depend on the rows that were in the vector. -/
theorem built_alike (out out' : List (StageReport F)) :
    (st.built env newLosses newStalled out).Alike (st.built env newLosses newStalled out') := by
  have hnew : Build.Alike ⟨out, 0, st.rowPoints.clear, st.pointBaseline⟩
      ⟨out', 0, st.rowPoints.clear, st.pointBaseline⟩ :=
    ⟨rfl, Nat.zero_le _, Nat.zero_le _, rfl, rfl, rfl⟩
  have hstages := foldl_alike (fun h => st.stageStep_alike env newLosses newStalled h) st.pairer.stages.entries hnew
  have hpoints := foldl_alike (fun h => st.pointStep_alike env newLosses newStalled h) st.pairer.points.entries hstages
  exact st.overflowStep_alike env newLosses newStalled hpoints

end Reporter

end SlickPerfmon
