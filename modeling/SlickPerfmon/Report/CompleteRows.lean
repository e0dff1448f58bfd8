import SlickPerfmon.Report.ColumnSum
import SlickPerfmon.Report.Lemmas.Refill
import SlickPerfmon.Report.RowOrder

/-!
# The rows are complete and unique

What `build_reports` leaves, whatever the vector held before: a row for each stage, for each point whose counters have
no stage to stand on, and for the overflow bucket if it holds anything; each under a key of its own and in the order of
the keys, so that `snapshot` finds the row of a stage.
-/

namespace SlickPerfmon

open Library

variable {A F : Type}

namespace Reporter

/-! ## What has a row -/

/-- A row but for the mark that exempts it from the filter of the file. -/
def unmarked (r : StageReport F) : StageReport F := { r with anomaliesOnly := false }

theorem unmarked_exempt (rows : List (StageReport F)) (i : Nat) :
    (rows.modify i fun r => { r with anomaliesOnly := true }).map unmarked = rows.map unmarked := by
  refine List.ext_getElem? fun j => ?_
  rw [List.getElem?_map, List.getElem?_modify, List.getElem?_map]
  cases rows[j]? with
  | none => rfl
  | some r =>
      simp only [Option.map_eq_map, Option.map_some]
      split
      · rfl
      · rfl

def hasStage (P : Pairer A) (p : UInt32) : Bool := P.stages.entries.any fun e => e.2.point == p

/-- A point on which something went wrong and that has no stage. -/
def stageless (P : Pairer A) (e : UInt64 × PointAnomalies) : Bool := e.2.any && !hasStage P e.1.toUInt32

theorem hasStage_eq_false {P : Pairer A} {p : UInt32} (h : ∀ e ∈ P.stages.entries, e.2.point ≠ p) :
    hasStage P p = false := by
  rw [hasStage, List.any_eq_false]
  intro e he
  simpa using h e he

theorem hasStage_eq_true {P : Pairer A} {p : UInt32} {e : UInt64 × Stage A} (he : e ∈ P.stages.entries)
    (hp : e.2.point = p) : hasStage P p = true := by
  rw [hasStage, List.any_eq_true]
  exact ⟨e, he, by simpa using hp⟩

variable [Accum A] (env : ReportEnv A F) (st : Reporter A F) (newLosses newStalled : Nat)

def stageRows : List (StageReport F) :=
  st.pairer.stages.entries.map fun e => st.stageRow env newLosses newStalled e.2

def pointRow (e : UInt64 × PointAnomalies) : StageReport F :=
  let p := e.1.toUInt32
  unmarked (st.anomalyRow env newLosses newStalled p (env.pointName p) false (st.newAnomalies p) e.2)

def overflowRows : List (StageReport F) :=
  let ov := st.pairer.overflow
  if ov.any then
    [unmarked (st.anomalyRow env newLosses newStalled 0 "overflow" true (ov.since st.overflowBaseline) ov)]
  else []

/-- The rows of a flush, but for their marks, in the order of the three passes. -/
def wantedRows : List (StageReport F) :=
  st.stageRows env newLosses newStalled ++
    (st.pairer.points.entries.filter (stageless st.pairer)).map (st.pointRow env newLosses newStalled) ++
    st.overflowRows env newLosses newStalled

/-! ## The three passes -/

/-- The rows after the points `done`. -/
def Listed (done : List (UInt64 × PointAnomalies)) (b : Build F) : Prop :=
  b.rows.map unmarked = st.stageRows env newLosses newStalled ++
    (done.filter (stageless st.pairer)).map (st.pointRow env newLosses newStalled)

section Passes

variable {env st newLosses newStalled}

namespace Listed

variable {c : Counter} {done : List (UInt64 × PointAnomalies)} {b : Build F}

theorem skip (h : Listed env st newLosses newStalled done b) {b' : Build F} {e : UInt64 × PointAnomalies}
    (hrows : b'.rows.map unmarked = b.rows.map unmarked) (hskip : stageless st.pairer e = false) :
    Listed env st newLosses newStalled (done ++ [e]) b' := by
  unfold Listed at h ⊢
  rw [hrows, h, List.filter_append, List.filter_singleton, hskip]
  simp

theorem step (h : Listed env st newLosses newStalled done b)
    (hb : PointsBuilt env st newLosses newStalled c st.pairer.stages.entries (done.map fun e => e.1.toUInt32) b)
    {e : UInt64 × PointAnomalies} {p : UInt32} (hp : e.1 = p.toUInt64)
    (hf : st.pairer.points.find p.toUInt64 = some e.2) (hnew : p ∉ done.map fun e => e.1.toUInt32) :
    Listed env st newLosses newStalled (done ++ [e]) (st.pointStep env newLosses newStalled b e) := by
  have hp32 : e.1.toUInt32 = p := by rw [hp]; simp
  obtain ⟨-, -, -, hcases⟩ := pointStep_cases env st newLosses newStalled hb.fits hp32 (hb.delta hf hnew)
  rcases hcases with ⟨ha, hrows⟩ | ⟨ha, hr, hrows⟩ | ⟨ref, -, hr, -, hrows⟩ | ⟨ref, -, hr, -, -, hrows⟩
  · -- nothing ever went wrong on this point
    exact h.skip (by rw [hrows]) (by rw [stageless, ha, Bool.false_and])
  · have hkeep : stageless st.pairer e = true := by
      rw [stageless, ha, hp32, hasStage_eq_false (hb.noted.absent p hr)]
      rfl
    unfold Listed at h ⊢
    rw [hrows, List.map_append, h, List.filter_append, List.filter_singleton, hkeep, List.append_assoc]
    congr 1
    simp [pointRow, hp32]
  · obtain ⟨ec, hec, hpc⟩ := hb.noted.carrier p ref hr
    exact h.skip (by rw [hrows]) (by
      rw [stageless, hp32, hasStage_eq_true (List.mem_of_getElem? hec) hpc, Bool.not_true, Bool.and_false])
  · obtain ⟨ec, hec, hpc⟩ := hb.noted.carrier p ref hr
    refine h.skip (by rw [hrows, unmarked_exempt]) ?_
    rw [stageless, hp32, hasStage_eq_true (List.mem_of_getElem? hec) hpc, Bool.not_true, Bool.and_false]

theorem fold (hP : st.pairer.PointsKept) (todo : List (UInt64 × PointAnomalies))
    (h : Listed env st newLosses newStalled done b)
    (hb : PointsBuilt env st newLosses newStalled c st.pairer.stages.entries (done.map fun e => e.1.toUInt32) b)
    (hle : ∀ p, (baselineOf st.pointBaseline p).Le (st.pairer.anomaliesOf p))
    (htodo : ∀ e ∈ todo, st.pairer.points.find e.1 = some e.2)
    (hnodup : ((done ++ todo).map fun e => e.1.toUInt32).Nodup) :
    Listed env st newLosses newStalled (done ++ todo) (todo.foldl (st.pointStep env newLosses newStalled) b) := by
  induction todo generalizing done b with
  | nil => simpa using h
  | cons e todo ih =>
      have hf := htodo e List.mem_cons_self
      have hkey := hP.keyed e.1 e.2 hf
      rw [List.append_cons] at hnodup ⊢
      have hnew : e.1.toUInt32 ∉ done.map fun e => e.1.toUInt32 := by
        rw [List.map_append, List.map_append] at hnodup
        intro hmem
        exact (List.nodup_append.mp (List.nodup_append.mp hnodup).1).2.2 _ hmem _ (by simp) rfl
      rw [hkey] at hf
      have hb' := hb.step hP.wf hkey hf hnew (hle _)
      refine ih (h.step hb hkey hf hnew) ?_ (fun e' he' => htodo e' (List.mem_cons_of_mem _ he')) hnodup
      rw [List.map_append, List.map_singleton]
      exact hb'

end Listed

/-- What a flush builds, whatever the vector held. -/
theorem FlushReady.rows_unmarked (h : FlushReady st) (out : List (StageReport F)) :
    (st.built env newLosses newStalled out).rows.map unmarked = st.wantedRows env newLosses newStalled := by
  rw [(st.built_alike env newLosses newStalled out st.buildRows).rows]
  obtain ⟨hs, -, -⟩ := h.stagesBuilt env newLosses newStalled
  have hstart : Listed env st newLosses newStalled [] (st.afterStages env newLosses newStalled) := by
    rw [Listed, hs.rows, List.filter_nil, List.map_nil, List.append_nil, List.map_map]
    rfl
  have hb := h.pointsStart env newLosses newStalled .invalid
  have htodo : ∀ e ∈ st.pairer.points.entries, st.pairer.points.find e.1 = some e.2 :=
    fun e he => (OpenMap.find_eq_some h.kept.wf).mpr he
  have hnodup : (([] ++ st.pairer.points.entries).map fun e : UInt64 × PointAnomalies => e.1.toUInt32).Nodup :=
    pointList_nodup h.kept
  have hlisted := hstart.fold h.kept st.pairer.points.entries hb h.grown htodo hnodup
  have hfits := (hb.fold h.kept st.pairer.points.entries h.grown htodo hnodup).fits
  set b := st.pairer.points.entries.foldl (st.pointStep env newLosses newStalled)
    (st.afterStages env newLosses newStalled) with hbdef
  have hbuilt : st.built env newLosses newStalled st.buildRows = st.overflowStep env newLosses newStalled b := rfl
  unfold Listed at hlisted
  rw [List.nil_append] at hlisted
  rw [hbuilt, overflowStep, wantedRows, ← hlisted, overflowRows]
  by_cases hany : st.pairer.overflow.any = true
  · obtain ⟨hput, -⟩ := Build.rows_putRow hfits (st.anomalyRow env newLosses newStalled 0 "overflow" true
      (st.pairer.overflow.since st.overflowBaseline) st.pairer.overflow)
    simp only [if_pos hany, hput, List.map_append, List.map_singleton]
  · simp only [if_neg hany, List.append_nil]

end Passes

section Keys

omit [Accum A]

/-! ## Keys -/

/-- The keys of the stages, of the points without one on which something went wrong, and of the overflow bucket. -/
def wantedKeys (P : Pairer A) : List RowKey :=
  P.stages.entries.map (fun e => ⟨false, e.2.point, e.2.fromStep, e.2.toStep⟩) ++
    (P.points.entries.filter (stageless P)).map (fun e => ⟨false, e.1.toUInt32, kBeginStep, kBeginStep⟩) ++
    if P.overflow.any then [⟨true, 0, kBeginStep, kBeginStep⟩] else []

theorem stageKeys_nodup {P : Pairer A} (hw : P.stages.WF) (hk : P.StagesKeyed) :
    (P.stages.entries.map fun e => (⟨false, e.2.point, e.2.fromStep, e.2.toStep⟩ : RowKey)).Nodup := by
  refine List.Nodup.of_map (fun k : RowKey => stageKey k.point k.fromStep k.toStep) ?_
  have hmap : (P.stages.entries.map fun e => (⟨false, e.2.point, e.2.fromStep, e.2.toStep⟩ : RowKey)).map
      (fun k : RowKey => stageKey k.point k.fromStep k.toStep) = P.stages.entries.map Prod.fst := by
    rw [List.map_map]
    refine List.map_congr_left fun e he => ?_
    exact (hk e.1 e.2 ((OpenMap.find_eq_some hw).mpr he)).symm
  rw [hmap]
  exact OpenMap.entries_keys_nodup hw

theorem pointKeys_nodup {P : Pairer A} (hP : P.PointsKept) (keep : UInt64 × PointAnomalies → Bool) :
    ((P.points.entries.filter keep).map fun e =>
      (⟨false, e.1.toUInt32, kBeginStep, kBeginStep⟩ : RowKey)).Nodup := by
  refine List.Nodup.of_map RowKey.point ?_
  rw [List.map_map]
  exact (pointList_nodup hP).sublist (List.filter_sublist.map _)

theorem wantedKeys_nodup {P : Pairer A} (hw : P.stages.WF) (hk : P.StagesKeyed) (hP : P.PointsKept) :
    (wantedKeys P).Nodup := by
  have hover : (if P.overflow.any then [(⟨true, 0, kBeginStep, kBeginStep⟩ : RowKey)] else []).Nodup := by
    split
    · exact List.nodup_singleton _
    · exact List.nodup_nil
  refine List.nodup_append.mpr ⟨List.nodup_append.mpr ⟨stageKeys_nodup hw hk, pointKeys_nodup hP _, ?_⟩, hover, ?_⟩
  · -- a point that has a stage is not among those that have none
    rintro _ hstage _ hpoint rfl
    obtain ⟨e, he, rfl⟩ := List.mem_map.mp hstage
    obtain ⟨e', he', hkey⟩ := List.mem_map.mp hpoint
    obtain ⟨-, hless⟩ := List.mem_filter.mp he'
    have hp : e.2.point = e'.1.toUInt32 := (congrArg RowKey.point hkey).symm
    rw [stageless, hasStage_eq_true he hp, Bool.not_true, Bool.and_false] at hless
    cases hless
  · rintro _ hmem _ hlast rfl
    split at hlast
    · cases List.mem_singleton.mp hlast
      rcases List.mem_append.mp hmem with hmem | hmem
      · obtain ⟨e, -, hkey⟩ := List.mem_map.mp hmem
        exact absurd (congrArg RowKey.overflow hkey) (by simp)
      · obtain ⟨e, -, hkey⟩ := List.mem_map.mp hmem
        exact absurd (congrArg RowKey.overflow hkey) (by simp)
    · cases hlast

theorem overflow_key {P : Pairer A} {k : RowKey} (hk : k ∈ wantedKeys P) (ho : k.overflow = true) :
    k = ⟨true, 0, kBeginStep, kBeginStep⟩ := by
  rcases List.mem_append.mp hk with hk | hk
  · rcases List.mem_append.mp hk with hk | hk
    · obtain ⟨e, -, rfl⟩ := List.mem_map.mp hk
      cases ho
    · obtain ⟨e, -, rfl⟩ := List.mem_map.mp hk
      cases ho
  · split at hk
    · exact List.mem_singleton.mp hk
    · cases hk

end Keys

/-! ## Every state a flush can find -/

/-- Whether the stream is open shows in the file only. -/
theorem doFlush_opened (st : Reporter A F) (csv : List (CsvRow F)) (f : FlushInput) :
    ∃ csv', ({ st with csv := csv } : Reporter A F).doFlush { env with csvOpen := true } f =
      { st.doFlush env f with csv := csv' } := by
  have hwrite : ∀ (st : Reporter A F) newLosses newStalled rows,
      ∃ csv', st.writeCsv env newLosses newStalled rows = { st with csv := csv' } := by
    intro st newLosses newStalled rows
    unfold writeCsv
    split
    · exact ⟨_, rfl⟩
    · exact ⟨st.csv, rfl⟩
  unfold doFlush
  simp only
  set newLosses := if f.loss > st.lastLoss then f.loss - st.lastLoss else 0
  set newStalled := f.stalledSlots - st.reportedStalled
  obtain ⟨csv', hcsv'⟩ := hwrite ((st.swept f).buildReports env newLosses newStalled) newLosses newStalled
    ((st.swept f).buildReports env newLosses newStalled).buildRows
  rw [hcsv']
  exact ⟨_, rfl⟩

variable (H : HeapLib)

theorem run_opened (steps : List SessionStep) (st : Reporter A F) (csv : List (CsvRow F)) :
    ∃ csv', ({ st with csv := csv } : Reporter A F).run H { env with csvOpen := true } steps =
      { st.run H env steps with csv := csv' } := by
  induction steps generalizing st csv with
  | nil => exact ⟨csv, rfl⟩
  | cons s steps ih =>
      cases s with
      | event e => exact ih (st.step H env (.event e)) csv
      | flush f =>
          obtain ⟨csv', hflush⟩ := doFlush_opened env st csv f
          obtain ⟨csv'', hrest⟩ := ih (st.step H env (.flush f)) csv'
          refine ⟨csv'', Eq.trans ?_ hrest⟩
          exact congrArg (fun st => st.run H { env with csvOpen := true } steps) hflush
      | abandonAll => exact ih (st.step H env .abandonAll) csv

/-- What every flush of a session finds. -/
theorem ready_swept (cfg : Config) (overheadCycles : UInt64) (reports : List (StageReport F)) (steps : List SessionStep)
    (f : FlushInput) :
    FlushReady (((reset cfg overheadCycles reports : Reporter A F).run H env steps).swept f) ∧
      (((reset cfg overheadCycles reports : Reporter A F).run H env steps).swept f).pairer.StagesKeyed := by
  set st : Reporter A F := reset cfg overheadCycles reports with hst
  obtain ⟨csv, hrun⟩ := run_opened env H steps st st.csv
  obtain ⟨excess, hsettled, -⟩ := Settled.run { env with csvOpen := true } H rfl steps
    (settled_reset cfg overheadCycles reports .invalid : Settled cfg .invalid st.pairer 0 st)
  have hsw := hsettled.swept f
  have hrun' : st.run H { env with csvOpen := true } steps = { st.run H env steps with csv := csv } := hrun
  rw [hrun'] at hsw
  obtain ⟨L, hL⟩ := hsw.balanced
  have hr := hsw.ready
  exact ⟨⟨hr.stages, hr.kept, hr.rowPoints, hr.baseline, hr.grown⟩, hL.keyed⟩

end Reporter

/-! ## The report -/

namespace InPlace

open Reporter

variable {D : Type}

def StageReport.key (r : StageReport D) : RowKey := ⟨r.overflow, r.point, r.fromStep, r.toStep⟩

section Sorted

variable [Zero D] {rows : List (StageReport D)}

omit [Zero D] in
theorem eq_of_rank (hnodup : (rows.map StageReport.key).Nodup) {r r' : StageReport D} (hr : r ∈ rows) (hr' : r' ∈ rows)
    (h : rowBefore r.shown r'.shown = false) (h' : rowBefore r'.shown r.shown = false) : r = r' := by
  rw [rowBefore_eq, decide_eq_false_iff_not] at h h'
  have hrank : r.key.rank = r'.key.rank := Nat.le_antisymm (Nat.le_of_not_lt h') (Nat.le_of_not_lt h)
  exact List.inj_on_of_nodup_map hnodup hr hr' (RowKey.rank_inj hrank)

/-- A row is found by its key. -/
theorem snapshot_eq (hnodup : (rows.map StageReport.key).Nodup) {r : StageReport D} (hr : r ∈ rows) {p : UInt32}
    {f t : UInt8} (hkey : r.key = ⟨false, p, f, t⟩) : snapshot rows p f t = r.cumulative := by
  have hfields : r.overflow = false ∧ r.point = p ∧ r.fromStep = f ∧ r.toStep = t :=
    ⟨congrArg RowKey.overflow hkey, congrArg RowKey.point hkey, congrArg RowKey.fromStep hkey, congrArg RowKey.toStep hkey⟩
  unfold snapshot
  cases hfind : rows.find? fun r' => !r'.overflow && r'.point == p && r'.fromStep == f && r'.toStep == t with
  | none =>
      have hnone := List.find?_eq_none.mp hfind r hr
      simp [hfields] at hnone
  | some r' =>
      have hmem := List.mem_of_find?_eq_some hfind
      have hpred := List.find?_some hfind
      simp only [Bool.and_eq_true, Bool.not_eq_true', beq_iff_eq] at hpred
      obtain ⟨⟨⟨ho, hp⟩, hf⟩, ht⟩ := hpred
      have hkey' : r'.key = r.key := by
        rw [hkey, StageReport.key, ho, hp, hf, ht]
      exact congrArg StageReport.cumulative (List.inj_on_of_nodup_map hnodup hmem hr hkey')

end Sorted

variable {A : Type} [Accum A] [BEq D] [Zero D] (env : FigureEnv A D) {st : Reporter A (RowFigures D)}
  (newLosses newStalled : Nat)

/-- The rows of a report of the state `st`: one for each stage, for each point without one on which something went
wrong, and for the overflow bucket if it holds anything; each with a key of its own, in the order of the report, and
`snapshot` answers with the lifetime record of the stage it is asked for. -/
structure Complete (st : Reporter A (RowFigures D)) (rows : List (StageReport D)) : Prop where
  keys : (rows.map StageReport.key).Perm (wantedKeys st.pairer)
  unique : (rows.map StageReport.key).Nodup
  sorted : (rows.map StageReport.key).Pairwise RowKey.Above
  snapshot : ∀ (p : UInt32) (f t : UInt8) (g : Stage A), st.pairer.stages.find (stageKey p f t) = some g →
    snapshot rows p f t =
      toStats env .new (merged g).cumulative (st.pairer.anomaliesOf p) st.lastLoss st.stalledSlots (isValueStage f t)

theorem keys_filled (h : FlushReady st) (out : List (StageReport D)) :
    (filled env st newLosses newStalled out).map StageReport.key = wantedKeys st.pairer := by
  have hkeys : (filled env st newLosses newStalled out).map StageReport.key =
      (((filled env st newLosses newStalled out).map StageReport.shown).map unmarked).map Reporter.key := by
    rw [List.map_map, List.map_map]
    rfl
  rw [hkeys, filled_shown, h.rows_unmarked]
  unfold wantedRows wantedKeys stageRows overflowRows
  simp only [List.map_append, List.map_map]
  congr 1
  split
  · rfl
  · rfl

/-- The row of a stage. -/
theorem stage_filled (h : FlushReady st) (out : List (StageReport D)) {k : UInt64} {g : Stage A}
    (hg : st.pairer.stages.find k = some g) :
    ∃ r ∈ filled env st newLosses newStalled out, r.key = ⟨false, g.point, g.fromStep, g.toStep⟩ ∧
      r.cumulative = toStats env .new (merged g).cumulative (st.pairer.anomaliesOf g.point) st.lastLoss
        st.stalledSlots (isValueStage g.fromStep g.toStep) := by
  have hmem : st.stageRow env.report newLosses newStalled g ∈
      ((filled env st newLosses newStalled out).map StageReport.shown).map unmarked := by
    rw [filled_shown, h.rows_unmarked, wantedRows, stageRows, List.append_assoc]
    exact List.mem_append_left _ (List.mem_map.mpr ⟨(k, g), (OpenMap.find_eq_some h.stages).mp hg, rfl⟩)
  rw [List.map_map] at hmem
  obtain ⟨r, hr, hrow⟩ := List.mem_map.mp hmem
  refine ⟨r, hr, congrArg Reporter.key hrow, Stats.shown_injective ?_⟩
  rw [shown_toStats]
  exact congrArg SlickPerfmon.StageReport.cumulative hrow

omit [Accum A] [BEq D] [Zero D] in
/-- Sorted, the rows keep their keys and stand in the order of the report. -/
theorem above_of_sorted {unsorted rows : List (StageReport D)} (hkeys : unsorted.map StageReport.key = wantedKeys st.pairer)
    (hnodup : (unsorted.map StageReport.key).Nodup) (hperm : rows.Perm unsorted)
    (hsorted : rows.Pairwise fun r r' => rowBefore r'.shown r.shown = false) :
    (rows.map StageReport.key).Pairwise RowKey.Above := by
  have hnodup' : (rows.map StageReport.key).Nodup := (hperm.map _).nodup_iff.mpr hnodup
  have hstrict := strict_of_sorted hsorted hnodup'.of_map fun r hr r' hr' h h' => eq_of_rank hnodup' hr hr' h h'
  refine List.pairwise_map.mpr (hstrict.imp_of_mem fun {r r'} hr hr' h => ?_)
  rw [rowBefore_eq, decide_eq_true_iff] at h
  have hwanted : ∀ r ∈ rows, r.key ∈ wantedKeys st.pairer := by
    intro r hr
    rw [← hkeys]
    exact List.mem_map_of_mem (hperm.mem_iff.mp hr)
  refine RowKey.above_of_rank h fun ho ho' => ?_
  rw [overflow_key (hwanted r hr) ho, overflow_key (hwanted r' hr') ho']

variable (H : HeapLib)

/-- Report rows are complete, unique and free of what the vector held. In every state that a flush of a session can find,
`build_reports` leaves the same rows whatever it is given to refill and whichever library sorts them. -/
theorem reports_complete (cfg : Config) (overheadCycles : UInt64) (reports : List (SlickPerfmon.StageReport (RowFigures D)))
    (steps : List SessionStep) (f : FlushInput) :
    let st := ((reset cfg overheadCycles reports : Reporter A (RowFigures D)).run H env.report steps).swept f
    ∃ rows, (∀ S out, buildReports env st newLosses newStalled S out = rows) ∧ Complete env st rows := by
  intro st
  obtain ⟨hready, hkeyed⟩ := ready_swept env.report H cfg overheadCycles reports steps f
  have hweak : StrictWeak fun r r' : StageReport D => rowBefore r.shown r'.shown :=
    ⟨fun r r' => rowBefore_strictWeak.asymm r.shown r'.shown,
      fun r r' r'' => rowBefore_strictWeak.negTrans r.shown r'.shown r''.shown⟩
  have hkeys := keys_filled env newLosses newStalled hready []
  set unsorted := filled env st newLosses newStalled [] with hunsorted
  have hnodup : (unsorted.map StageReport.key).Nodup := by
    rw [hkeys]
    exact wantedKeys_nodup hready.stages hkeyed hready.kept
  set rows := insertionSortLib.sort (fun r r' => rowBefore r.shown r'.shown) unsorted with hrows
  have hperm : rows.Perm unsorted := insertionSortLib.perm hweak unsorted
  have hsorted := insertionSortLib.sorted hweak unsorted
  have hnodup' : (rows.map StageReport.key).Nodup := (hperm.map _).nodup_iff.mpr hnodup
  refine ⟨rows, fun S out => ?_, ?_⟩
  · have hfilled : buildReports env st newLosses newStalled S out =
        S.sort (fun r r' => rowBefore r.shown r'.shown) unsorted := by
      rw [hunsorted, filled_recycled env st newLosses newStalled [] out]
      rfl
    rw [hfilled]
    exact sorted_unique ((S.perm hweak unsorted).trans hperm.symm) hsorted (S.sorted hweak unsorted)
      fun r hr r' hr' h h' => eq_of_rank hnodup' hr hr' h h'
  · refine ⟨hkeys ▸ hperm.map _, hnodup', above_of_sorted hkeys hnodup hperm hsorted, fun p fromStep toStep g hg => ?_⟩
    obtain ⟨rfl, rfl, rfl⟩ := stageKey_inj (hkeyed _ g hg)
    obtain ⟨r, hr, hkey, hcumulative⟩ := stage_filled env newLosses newStalled hready [] hg
    exact (snapshot_eq hnodup' (hperm.mem_iff.mpr hr) hkey).trans hcumulative

end InPlace

end SlickPerfmon
