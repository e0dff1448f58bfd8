import SlickPerfmon.Report.RowRefill

/-!
# A refilled row is a new row

Each builder assigns every field of the row it takes, so that what the vector shows goes through the steps of the flush.
-/

namespace SlickPerfmon

open Library

namespace InPlace

variable {A D : Type}

/-! ## Nothing is hidden -/

theorem Stats.shown_injective : Function.Injective (Stats.shown : Stats D → _) := by
  intro s s' h
  cases s
  cases s'
  simp only [shown, SlickPerfmon.Stats.mk.injEq, RowFigures.stats.injEq] at h
  obtain ⟨h₁, h₂, h₃, h₄, h₅, h₆, h₇, h₈, h₉, h₁₀, h₁₁, h₁₂, h₁₃⟩ := h
  subst h₁ h₂ h₃ h₄ h₅ h₆ h₇ h₈ h₉ h₁₀ h₁₁ h₁₂ h₁₃
  rfl

theorem StageReport.shown_injective : Function.Injective (StageReport.shown : StageReport D → _) := by
  intro r r' h
  cases r
  cases r'
  simp only [shown, SlickPerfmon.StageReport.mk.injEq, RowFigures.summary.injEq] at h
  obtain ⟨h₁, h₂, h₃, h₄, h₅, h₆, h₇, h₈, h₉, h₁₀, h₁₁, h₁₂⟩ := h
  subst h₁ h₂ h₃ h₄ h₅ h₈ h₉ h₁₀ h₁₁ h₁₂
  rw [Stats.shown_injective h₆, Stats.shown_injective h₇]

/-! ## The builders -/

section Builders

variable [Accum A] [BEq D] (env : FigureEnv A D) (st : Reporter A (RowFigures D)) (newLosses newStalled : Nat)

omit [BEq D] in
theorem foldl_percentiles (f : D → D) (ps : List D) (s : Stats D) :
    ps.foldl (fun s p => { s with percentiles := s.percentiles ++ [f p] }) s =
      { s with percentiles := s.percentiles ++ ps.map f } := by
  induction ps generalizing s with
  | nil => simp
  | cons p ps ih =>
      rw [List.foldl_cons, ih]
      simp

theorem shown_toStats (s : Stats D) (acc : A) (an : PointAnomalies) (dropped stalled : Nat) (raw : Bool) :
    (toStats env s acc an dropped stalled raw).shown = env.report.toStats acc an dropped stalled raw := by
  simp only [toStats, foldl_percentiles, List.nil_append]
  rfl

omit [BEq D] in
theorem percentiles_toStats (s : Stats D) (acc : A) (an : PointAnomalies) (dropped stalled : Nat) (raw : Bool) :
    (toStats env s acc an dropped stalled raw).percentiles =
      env.percentiles.map fun p => env.scaled (env.percentile acc p) raw := by
  simp only [toStats, foldl_percentiles, List.nil_append]

theorem shown_fillStage (g : Stage A) (r : StageReport D) :
    (fillStage env st newLosses newStalled g r).shown = st.stageRow env.report newLosses newStalled g := by
  simp only [fillStage, toSummary, StageReport.shown, shown_toStats, percentiles_toStats]
  rfl

theorem shown_fillAnomaly (p : UInt32) (name : String) (overflow : Bool) (delta total : PointAnomalies)
    (r : StageReport D) :
    StageReport.shown { fillAnomaly env st newLosses newStalled p delta total r with
        pointName := name
        overflow := overflow } =
      st.anomalyRow env.report newLosses newStalled p name overflow delta total := by
  simp only [fillAnomaly, toSummary, StageReport.shown, shown_toStats, percentiles_toStats]
  rfl

end Builders

/-! ## The vector -/

section Vector

variable [Zero D]

omit [Zero D] in
theorem shown_modify {f : StageReport D → StageReport D}
    (f' : SlickPerfmon.StageReport (RowFigures D) → SlickPerfmon.StageReport (RowFigures D))
    (hf : ∀ r, (f r).shown = f' r.shown) (rows : List (StageReport D)) (i : Nat) :
    (rows.modify i f).map StageReport.shown = (rows.map StageReport.shown).modify i f' := by
  refine List.ext_getElem? fun j => ?_
  rw [List.getElem?_map, List.getElem?_modify, List.getElem?_modify, List.getElem?_map]
  cases rows[j]? with
  | none => rfl
  | some r =>
      simp only [Option.map_eq_map, Option.map_some]
      split
      · rw [hf]
      · rfl

theorem Build.shown_refill {b : Build D} {f : StageReport D → StageReport D} {r : SlickPerfmon.StageReport (RowFigures D)}
    (hf : ∀ x, (f x).shown = r) : (b.refill f).shown = b.shown.putRow r := by
  unfold Build.refill Build.nextRow Build.shown SlickPerfmon.Build.putRow
  simp only [Nat.add_sub_cancel, shown_modify (fun _ => r) hf, ← List.set_eq_modify, List.length_map]
  by_cases hn : b.n = b.out.length
  · simp only [if_pos hn, List.map_append, List.map_singleton]
    congr 1
    rw [List.set_append_right (h := by simp [hn])]
    simp [hn]
  · simp only [if_neg hn]

/-- The row just refilled is there to be noted. -/
theorem Build.refill_last {b : Build D} (hfits : b.n ≤ b.out.length) {f : StageReport D → StageReport D}
    {r : SlickPerfmon.StageReport (RowFigures D)} (hf : ∀ x, (f x).shown = r) :
    ∃ x, (b.refill f).out[b.n]? = some x ∧ x.shown = r := by
  have hrow : ((b.refill f).out.map StageReport.shown)[b.n]? = some r := by
    have hout : (b.refill f).out.map StageReport.shown = (b.shown.putRow r).out :=
      congrArg SlickPerfmon.Build.out (Build.shown_refill hf)
    obtain ⟨hput, -⟩ := SlickPerfmon.Build.rows_putRow (b := b.shown) (by simpa [Build.shown] using hfits) r
    have hat := congrArg (·[b.n]?) hput
    simp only [SlickPerfmon.Build.rows] at hat
    rw [hout]
    have hlen : (b.shown.out.take b.shown.n).length = b.n := by
      simpa [Build.shown] using hfits
    rw [List.getElem?_append_right (by rw [hlen]), hlen, Nat.sub_self] at hat
    rw [List.getElem?_take] at hat
    simpa [SlickPerfmon.Build.putRow, Build.shown] using hat
  rw [List.getElem?_map] at hrow
  obtain ⟨x, hx, hr⟩ := Option.map_eq_some_iff.mp hrow
  exact ⟨x, hx, hr⟩

theorem Build.refill_fits {b : Build D} (hfits : b.n ≤ b.out.length) (f : StageReport D → StageReport D) :
    (b.refill f).n ≤ (b.refill f).out.length := by
  unfold Build.refill Build.nextRow
  simp only [List.length_modify]
  split
  · rw [List.length_append, List.length_singleton]; omega
  · omega

end Vector

/-! ## The three passes -/

section Passes

variable [Accum A] [BEq D] [Zero D] (env : FigureEnv A D) (st : Reporter A (RowFigures D)) (newLosses newStalled : Nat)

theorem stageStep_shown {b : Build D} (hfits : b.n ≤ b.out.length) (e : UInt64 × Stage A) :
    (stageStep env st newLosses newStalled b e).shown = st.stageStep env.report newLosses newStalled b.shown e ∧
      (stageStep env st newLosses newStalled b e).n ≤ (stageStep env st newLosses newStalled b e).out.length := by
  have hfill := shown_fillStage env st newLosses newStalled e.2
  have hput := Build.shown_refill (b := b) hfill
  obtain ⟨x, hx, hshown⟩ := Build.refill_last hfits hfill
  have hn : (b.refill (fillStage env st newLosses newStalled e.2)).n - 1 = b.n := rfl
  unfold stageStep
  simp only [hn, hx, hshown]
  refine ⟨?_, Build.refill_fits hfits _⟩
  unfold Reporter.stageStep
  simp only [← hput]
  rfl

theorem pointStep_shown {b : Build D} (hfits : b.n ≤ b.out.length) (e : UInt64 × PointAnomalies) :
    (pointStep env st newLosses newStalled b e).shown = st.pointStep env.report newLosses newStalled b.shown e ∧
      (pointStep env st newLosses newStalled b e).n ≤ (pointStep env st newLosses newStalled b e).out.length := by
  unfold pointStep Reporter.pointStep
  simp only
  have hbase : b.shown.baseline = b.baseline := rfl
  have hrows : b.shown.rowPoints = b.rowPoints := rfl
  cases hany : e.2.any with
  | false => exact ⟨rfl, hfits⟩
  | true =>
      simp only [if_true, hbase]
      set delta := e.2.since (Reporter.baselineOf b.baseline e.1.toUInt32) with hdelta
      -- the baseline is beside the vector
      obtain ⟨b₁, hb₁, hshown₁, hfits₁⟩ : ∃ b₁ : Build D,
          b₁ = (if delta.any then
            { b with baseline := Reporter.moveBaseline b.baseline e.1.toUInt32 e.2 } else b) ∧
          b₁.shown = (if delta.any then
            { b.shown with baseline := Reporter.moveBaseline b.baseline e.1.toUInt32 e.2 } else b.shown) ∧
          b₁.n ≤ b₁.out.length := by
        refine ⟨_, rfl, ?_, ?_⟩
        · split <;> rfl
        · split <;> exact hfits
      rw [← hb₁, ← hshown₁]
      have hsame : b₁.shown.rowPoints = b₁.rowPoints := rfl
      rw [hsame]
      cases b₁.rowPoints.find e.1.toUInt32.toUInt64 with
      | none => exact ⟨Build.shown_refill fun r => shown_fillAnomaly env st newLosses newStalled _ _ _ _ _ r,
          Build.refill_fits hfits₁ _⟩
      | some ref =>
          simp only
          split
          · exact ⟨rfl, hfits₁⟩
          · refine ⟨?_, by rw [List.length_modify]; exact hfits₁⟩
            simp only [Build.shown]
            rw [shown_modify (fun r => { r with anomaliesOnly := true }) fun _ => rfl]

theorem overflowStep_shown {b : Build D} :
    (overflowStep env st newLosses newStalled b).shown = st.overflowStep env.report newLosses newStalled b.shown := by
  unfold overflowStep Reporter.overflowStep
  simp only
  split
  · exact Build.shown_refill fun r => shown_fillAnomaly env st newLosses newStalled _ _ _ _ _ r
  · rfl

omit [BEq D] [Zero D] in
theorem foldl_shown {E : Type} {step : Build D → E → Build D}
    {step' : SlickPerfmon.Build (RowFigures D) → E → SlickPerfmon.Build (RowFigures D)}
    (hstep : ∀ {b : Build D}, b.n ≤ b.out.length → ∀ e, (step b e).shown = step' b.shown e ∧
      (step b e).n ≤ (step b e).out.length) (es : List E) {b : Build D} (hfits : b.n ≤ b.out.length) :
    (es.foldl step b).shown = es.foldl step' b.shown ∧ (es.foldl step b).n ≤ (es.foldl step b).out.length := by
  induction es generalizing b with
  | nil => exact ⟨rfl, hfits⟩
  | cons e es ih =>
      obtain ⟨hshown, hfits'⟩ := hstep hfits e
      rw [List.foldl_cons, List.foldl_cons, ← hshown]
      exact ih hfits'

/-- The vector shows what the flush builds. -/
theorem built_shown (out : List (StageReport D)) :
    (built env st newLosses newStalled out).shown =
      st.built env.report newLosses newStalled (out.map StageReport.shown) := by
  have hstart : (⟨out, 0, st.rowPoints.clear, st.pointBaseline⟩ : Build D).n ≤
      (⟨out, 0, st.rowPoints.clear, st.pointBaseline⟩ : Build D).out.length := Nat.zero_le _
  obtain ⟨hs, hfits⟩ := foldl_shown (fun h => stageStep_shown env st newLosses newStalled h)
    st.pairer.stages.entries hstart
  obtain ⟨hp, -⟩ := foldl_shown (fun h => pointStep_shown env st newLosses newStalled h)
    st.pairer.points.entries hfits
  unfold built Reporter.built
  simp only
  rw [overflowStep_shown, hp, hs]
  rfl

/-- The rows that are sorted, in the order they were built. -/
def filled (out : List (StageReport D)) : List (StageReport D) :=
  (built env st newLosses newStalled out).out.take (built env st newLosses newStalled out).n

theorem filled_shown (out : List (StageReport D)) :
    (filled env st newLosses newStalled out).map StageReport.shown =
      (st.built env.report newLosses newStalled (out.map StageReport.shown)).rows := by
  rw [← built_shown, filled, List.map_take]
  rfl

/-- They are the same whatever the vector held. -/
theorem filled_recycled (out out' : List (StageReport D)) :
    filled env st newLosses newStalled out = filled env st newLosses newStalled out' := by
  refine StageReport.shown_injective.list_map ?_
  rw [filled_shown, filled_shown]
  exact (st.built_alike env.report newLosses newStalled _ _).rows

end Passes

end InPlace

end SlickPerfmon
