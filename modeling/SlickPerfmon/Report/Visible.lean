import SlickPerfmon.Report.ColumnSum

/-!
# No loss is invisible

What the rows of one flush say: every row of a point carries what is new on the point, a point with something new
has a row that goes to the file, and what is lost for everybody stands on every row or on one of its own.
-/

namespace SlickPerfmon

open Library

variable {A F : Type}

namespace Reporter

variable [Accum A] (env : ReportEnv A F) (st : Reporter A F) (newLosses newStalled : Nat)

/-! ## A row -/

/-- The counts of the interval that every row shares. -/
def Shares (s : Stats F) : Prop := s.dropped = newLosses ∧ s.stalled = newStalled

/-- A row of a point, with what is new on the point. -/
structure Speaks (r : StageReport F) : Prop where
  name : r.pointName = env.pointName r.point
  own : r.overflow = false
  anomalies : ∀ c, r.interval.get c = (st.newAnomalies r.point).get c
  shares : Shares newLosses newStalled r.interval

theorem speaks_stageRow (g : Stage A) :
    Speaks env st newLosses newStalled (st.stageRow env newLosses newStalled g) where
  name := rfl
  own := rfl
  anomalies c := get_toStats env _ _ _ _ _ c
  shares := ⟨rfl, rfl⟩

theorem speaks_anomalyRow (p : UInt32) (total : PointAnomalies) :
    Speaks env st newLosses newStalled
      (st.anomalyRow env newLosses newStalled p (env.pointName p) false (st.newAnomalies p) total) where
  name := rfl
  own := rfl
  anomalies c := get_toStats env _ _ _ _ _ c
  shares := ⟨rfl, rfl⟩

omit [Accum A] in
/-- Exempting a row from the filter of the file changes nothing it says, and a written row stays written. -/
theorem mem_exempt {rows : List (StageReport F)} {i : Nat} {r : StageReport F}
    (h : r ∈ rows.modify i fun r => { r with anomaliesOnly := true }) :
    ∃ r₀ ∈ rows, r = r₀ ∨ r = { r₀ with anomaliesOnly := true } := by
  obtain ⟨j, hj⟩ := List.mem_iff_getElem?.mp h
  rw [List.getElem?_modify] at hj
  obtain ⟨r₀, hr₀, rfl⟩ := Option.map_eq_some_iff.mp hj
  refine ⟨r₀, List.mem_of_getElem? hr₀, ?_⟩
  split
  · exact Or.inr rfl
  · exact Or.inl rfl

theorem exempt_mem {rows : List (StageReport F)} {i : Nat} {r : StageReport F} (h : r ∈ rows) (hw : written r = true) :
    ∃ r' ∈ rows.modify i (fun r => { r with anomaliesOnly := true }), r'.point = r.point ∧ written r' = true := by
  obtain ⟨j, hj⟩ := List.mem_iff_getElem?.mp h
  by_cases hij : i = j
  · refine ⟨{ r with anomaliesOnly := true }, List.mem_iff_getElem?.mpr ⟨j, ?_⟩, rfl, by simp [written]⟩
    rw [List.getElem?_modify, hj, hij]
    simp
  · refine ⟨r, List.mem_iff_getElem?.mpr ⟨j, ?_⟩, rfl, hw⟩
    rw [List.getElem?_modify, hj]
    simp [hij]

/-! ## The pass over the points -/

/-- After the points `done`: every row is a row of its point, and each of them with something new has one that goes to
the file. -/
structure Told (done : List UInt32) (b : Build F) : Prop where
  rows : ∀ r ∈ b.rows, Speaks env st newLosses newStalled r
  told : ∀ p ∈ done, (st.newAnomalies p).any = true → ∃ r ∈ b.rows, r.point = p ∧ written r = true

namespace Told

variable {env st newLosses newStalled} {c : Counter} {es : List (UInt64 × Stage A)} {done : List UInt32}
  {b : Build F} {p : UInt32}

omit [Accum A] in
/-- One more point, with a row of its own where it has something new. -/
theorem extend (h : Told env st newLosses newStalled done b) {b' : Build F}
    (hrows : ∀ r ∈ b'.rows, Speaks env st newLosses newStalled r)
    (hkept : ∀ r ∈ b.rows, written r = true → ∃ r' ∈ b'.rows, r'.point = r.point ∧ written r' = true)
    (hnew : (st.newAnomalies p).any = true → ∃ r ∈ b'.rows, r.point = p ∧ written r = true) :
    Told env st newLosses newStalled (done ++ [p]) b' where
  rows := hrows
  told q hq hany := by
    rcases List.mem_append.mp hq with hq | hq
    · obtain ⟨r, hr, hp, hw⟩ := h.told q hq hany
      obtain ⟨r', hr', hp', hw'⟩ := hkept r hr hw
      exact ⟨r', hr', hp'.trans hp, hw'⟩
    · cases List.mem_singleton.mp hq
      exact hnew hany

theorem step (h : Told env st newLosses newStalled done b)
    (hb : PointsBuilt env st newLosses newStalled c es done b) {e : UInt64 × PointAnomalies}
    (hp : e.1 = p.toUInt64) (hf : st.pairer.points.find p.toUInt64 = some e.2) (hnew : p ∉ done) :
    Told env st newLosses newStalled (done ++ [p]) (st.pointStep env newLosses newStalled b e) := by
  have hp32 : e.1.toUInt32 = p := by rw [hp]; simp
  have hdelta := hb.delta hf hnew
  obtain ⟨-, -, -, hcases⟩ := pointStep_cases env st newLosses newStalled hb.fits hp32 hdelta
  rcases hcases with ⟨ha, hrows⟩ | ⟨-, -, hrows⟩ | ⟨ref, -, hr, hcond, hrows⟩ | ⟨ref, -, hr, -, hd, hrows⟩
  · -- nothing ever went wrong on this point
    refine h.extend (by rw [hrows]; exact h.rows) (fun r hr hw => ⟨r, by rw [hrows]; exact hr, rfl, hw⟩) fun hany => ?_
    rw [any_of_since (hdelta ▸ hany)] at ha
    cases ha
  · refine h.extend (fun r hr => ?_) (fun r hr hw => ⟨r, by rw [hrows]; simp [hr], rfl, hw⟩) fun hany => ?_
    · rw [hrows] at hr
      rcases List.mem_append.mp hr with hr | hr
      · exact h.rows r hr
      · cases List.mem_singleton.mp hr
        exact speaks_anomalyRow env st newLosses newStalled p e.2
    · exact ⟨_, by rw [hrows]; exact List.mem_append_right _ List.mem_cons_self, rfl, by simp [written, anomalyRow, hany]⟩
  · refine h.extend (by rw [hrows]; exact h.rows) (fun r hr hw => ⟨r, by rw [hrows]; exact hr, rfl, hw⟩) fun hany => ?_
    rcases hcond with hhas | hd
    · -- a stage of the point has samples, and its row is written
      have hcount := (hb.noted.samples p ref hr).mp hhas
      obtain ⟨e', he', hpe⟩ := List.mem_map.mp (List.count_pos_iff.mp (Nat.pos_of_ne_zero hcount))
      obtain ⟨hmem, hsam⟩ := List.mem_filter.mp he'
      obtain ⟨i, hi⟩ := List.mem_iff_getElem?.mp hmem
      have hrow := hb.stages i e' hi (by rw [hpe]; exact hnew)
      refine ⟨_, by rw [hrows]; exact List.mem_of_getElem? hrow, hpe, ?_⟩
      have h0 : Accum.count e'.2.interval ≠ 0 := by simpa using hsam
      simp [written, stageRow, ReportEnv.toStats, h0]
    · rw [hd] at hany
      cases hany
  · refine h.extend (fun r hr => ?_) (fun r hr hw => by rw [hrows]; exact exempt_mem hr hw) fun _ => ?_
    · rw [hrows] at hr
      obtain ⟨r₀, hr₀, rfl | rfl⟩ := mem_exempt hr
      · exact h.rows r hr₀
      · have hs := h.rows r₀ hr₀
        exact ⟨hs.name, hs.own, hs.anomalies, hs.shares⟩
    · obtain ⟨ec, -, hpc, hrow⟩ := hb.carrierRow hr hnew
      refine ⟨{ st.stageRow env newLosses newStalled ec.2 with anomaliesOnly := true }, ?_, hpc, by simp [written]⟩
      rw [hrows]
      refine List.mem_iff_getElem?.mpr ⟨ref.carrier, ?_⟩
      rw [List.getElem?_modify, hrow]
      simp

theorem fold (hP : st.pairer.PointsKept) (todo : List (UInt64 × PointAnomalies))
    (h : Told env st newLosses newStalled done b) (hb : PointsBuilt env st newLosses newStalled c es done b)
    (hle : ∀ p, (baselineOf st.pointBaseline p).Le (st.pairer.anomaliesOf p))
    (htodo : ∀ e ∈ todo, st.pairer.points.find e.1 = some e.2)
    (hnodup : (done ++ todo.map fun e => e.1.toUInt32).Nodup) :
    Told env st newLosses newStalled (done ++ todo.map fun e => e.1.toUInt32)
      (todo.foldl (st.pointStep env newLosses newStalled) b) := by
  induction todo generalizing done b with
  | nil => simpa using h
  | cons e todo ih =>
      have hf := htodo e List.mem_cons_self
      have hkey := hP.keyed e.1 e.2 hf
      rw [List.map_cons, List.append_cons] at hnodup ⊢
      have hnew : e.1.toUInt32 ∉ done := by
        intro hmem
        exact (List.nodup_append.mp (List.nodup_append.mp hnodup).1).2.2 _ hmem _ (by simp) rfl
      rw [hkey] at hf
      exact ih (h.step hb hkey hf hnew) (hb.step hP.wf hkey hf hnew (hle _))
        (fun e' he' => htodo e' (List.mem_cons_of_mem _ he')) hnodup

end Told

/-! ## The rows of a flush -/

/-- The rows of a flush: each carries what is new on its point, or on the overflow bucket, and the losses of all; and
what is new has a row that goes to the file. -/
structure RowsTold (rows : List (StageReport F)) : Prop where
  points : ∀ r ∈ rows, r.overflow = false → Speaks env st newLosses newStalled r
  overflow : ∀ r ∈ rows, r.overflow = true → ∀ c, r.interval.get c = (st.pairer.overflow.since st.overflowBaseline).get c
  shares : ∀ r ∈ rows, Shares newLosses newStalled r.interval
  told : ∀ p, (st.newAnomalies p).any = true → ∃ r ∈ rows, r.overflow = false ∧ r.point = p ∧ written r = true
  toldOverflow : (st.pairer.overflow.since st.overflowBaseline).any = true →
    ∃ r ∈ rows, r.overflow = true ∧ written r = true

variable {env st newLosses newStalled}

theorem FlushReady.told (h : FlushReady st) :
    RowsTold env st newLosses newStalled (st.built env newLosses newStalled st.buildRows).rows := by
  obtain ⟨hs, -, -⟩ := h.stagesBuilt env newLosses newStalled
  have hstart : Told env st newLosses newStalled [] (st.afterStages env newLosses newStalled) :=
    { rows := fun r hr => by
        rw [hs.rows] at hr
        obtain ⟨e, -, rfl⟩ := List.mem_map.mp hr
        exact speaks_stageRow env st newLosses newStalled e.2
      told := fun p hp => by cases hp }
  have hb := h.pointsStart env newLosses newStalled .invalid
  have htodo : ∀ e ∈ st.pairer.points.entries, st.pairer.points.find e.1 = some e.2 :=
    fun e he => (OpenMap.find_eq_some h.kept.wf).mpr he
  have hnodup : ([] ++ pointList st.pairer).Nodup := by
    rw [List.nil_append]
    exact pointList_nodup h.kept
  have ht := hstart.fold h.kept st.pairer.points.entries hb h.grown htodo hnodup
  have hfits := (hb.fold h.kept st.pairer.points.entries h.grown htodo hnodup).fits
  rw [List.nil_append] at ht
  set b := st.pairer.points.entries.foldl (st.pointStep env newLosses newStalled)
    (st.afterStages env newLosses newStalled) with hbdef
  have htold : ∀ p, (st.newAnomalies p).any = true → ∃ r ∈ b.rows, r.overflow = false ∧ r.point = p ∧ written r = true := by
    intro p hany
    have hmem : p ∈ pointList st.pairer := by
      by_contra hnot
      rw [PointAnomalies.not_any_of_get fun c => newAnomalies_of_notMem h.kept c hnot] at hany
      cases hany
    obtain ⟨r, hr, hp, hw⟩ := ht.told p hmem hany
    exact ⟨r, hr, (ht.rows r hr).own, hp, hw⟩
  have hbuilt : st.built env newLosses newStalled st.buildRows = st.overflowStep env newLosses newStalled b := rfl
  rw [hbuilt]
  unfold overflowStep
  by_cases hany : st.pairer.overflow.any = true
  · simp only [if_pos hany]
    obtain ⟨hput, -⟩ := Build.rows_putRow hfits (st.anomalyRow env newLosses newStalled 0 "overflow" true
      (st.pairer.overflow.since st.overflowBaseline) st.pairer.overflow)
    rw [hput]
    refine ⟨fun r hr ho => ?_, fun r hr ho c => ?_, fun r hr => ?_, fun p hp => ?_, fun hd => ?_⟩
    · rcases List.mem_append.mp hr with hr | hr
      · exact ht.rows r hr
      · cases List.mem_singleton.mp hr
        cases ho
    · rcases List.mem_append.mp hr with hr | hr
      · rw [(ht.rows r hr).own] at ho
        cases ho
      · cases List.mem_singleton.mp hr
        exact get_toStats env _ _ _ _ _ c
    · rcases List.mem_append.mp hr with hr | hr
      · exact (ht.rows r hr).shares
      · cases List.mem_singleton.mp hr
        exact ⟨rfl, rfl⟩
    · obtain ⟨r, hr, hrest⟩ := htold p hp
      exact ⟨r, List.mem_append_left _ hr, hrest⟩
    · exact ⟨_, List.mem_append_right _ List.mem_cons_self, rfl, by simp [written, anomalyRow, hd]⟩
  · simp only [if_neg hany]
    refine ⟨fun r hr _ => ht.rows r hr, fun r hr ho => ?_, fun r hr => (ht.rows r hr).shares, htold, fun hd => ?_⟩
    · rw [(ht.rows r hr).own] at ho
      cases ho
    · exact absurd (any_of_since hd) hany

omit [Accum A] in
theorem RowsTold.perm {rows rows' : List (StageReport F)} (h : RowsTold env st newLosses newStalled rows)
    (hperm : rows'.Perm rows) : RowsTold env st newLosses newStalled rows' where
  points r hr := h.points r (hperm.mem_iff.mp hr)
  overflow r hr := h.overflow r (hperm.mem_iff.mp hr)
  shares r hr := h.shares r (hperm.mem_iff.mp hr)
  told p hp := by
    obtain ⟨r, hr, hrest⟩ := h.told p hp
    exact ⟨r, hperm.mem_iff.mpr hr, hrest⟩
  toldOverflow hd := by
    obtain ⟨r, hr, hrest⟩ := h.toldOverflow hd
    exact ⟨r, hperm.mem_iff.mpr hr, hrest⟩

/-! ## The file -/

/-- What a flush with these rows appends to the file. -/
def fileRows (env : ReportEnv A F) (newLosses newStalled : Nat) (rows : List (StageReport F)) : List (CsvRow F) :=
  (rows.filter written).map csvRow ++
    if (rows.filter written).isEmpty && (newLosses != 0 || newStalled != 0) then
      [collectorRow env newLosses newStalled] else []

theorem mem_fileRows {rows : List (StageReport F)} {r : StageReport F} (hr : r ∈ rows) (hw : written r = true) :
    csvRow r ∈ fileRows env newLosses newStalled rows :=
  List.mem_append_left _ (List.mem_map.mpr ⟨r, List.mem_filter.mpr ⟨hr, hw⟩, rfl⟩)

/-- What was dropped or stalled is on every row, or on one of its own when no other goes to the file. -/
theorem RowsTold.losses_written {rows : List (StageReport F)} (h : RowsTold env st newLosses newStalled rows)
    (hgain : newLosses ≠ 0 ∨ newStalled ≠ 0) :
    ∃ row ∈ fileRows env newLosses newStalled rows, row.stats.dropped = newLosses ∧ row.stats.stalled = newStalled := by
  by_cases hnone : rows.filter written = []
  · refine ⟨collectorRow env newLosses newStalled, ?_, rfl, rfl⟩
    have hcond : (newLosses != 0 || newStalled != 0) = true := by
      rw [Bool.or_eq_true, bne_iff_ne, bne_iff_ne]
      exact hgain
    rw [fileRows, hnone, hcond]
    simp
  · obtain ⟨r, hr⟩ := List.exists_mem_of_ne_nil _ hnone
    obtain ⟨hmem, hw⟩ := List.mem_filter.mp hr
    obtain ⟨hdropped, hstalled⟩ := h.shares r hmem
    exact ⟨csvRow r, mem_fileRows hmem hw, hdropped, hstalled⟩

variable (env st)

theorem doFlush_csv (hopen : env.csvOpen = true) (f : FlushInput) {newLosses newStalled : Nat}
    (hn : newLosses = if f.loss > st.lastLoss then f.loss - st.lastLoss else 0)
    (hs : newStalled = f.stalledSlots - st.reportedStalled) :
    (st.doFlush env f).csv = st.csv ++ fileRows env newLosses newStalled (st.doFlush env f).reports := by
  subst hn hs
  have hfile : ∀ (st : Reporter A F) (newLosses newStalled : Nat) (rows : List (StageReport F)),
      (st.writeCsv env newLosses newStalled rows).csv = st.csv ++ fileRows env newLosses newStalled rows := by
    intro st newLosses newStalled rows
    rw [writeCsv, if_pos hopen, fileRows, ← List.append_assoc]
  have hrows : ∀ (st : Reporter A F) (newLosses newStalled : Nat) (rows : List (StageReport F)),
      (st.writeCsv env newLosses newStalled rows).buildRows = st.buildRows := by
    intro st newLosses newStalled rows
    rw [writeCsv, if_pos hopen]
  simp only [doFlush, hfile, hrows]
  rfl

/-! ## What is new -/

variable {env st}

omit [Accum A] in
/-- What a point had at the last flush, and what is new, make up what it has. -/
theorem Settled.point_gain {cfg : Config} {c : Counter} {Q : Pairer A} {excess : Nat} (h : Settled cfg c Q excess st)
    (p : UInt32) (c' : Counter) :
    (Q.anomaliesOf p).get c' + (st.newAnomalies p).get c' = (st.pairer.anomaliesOf p).get c' := by
  have hle := h.grown p c'
  rw [newAnomalies, PointAnomalies.get_since, h.base]
  exact Nat.add_sub_cancel' hle

omit [Accum A] in
theorem Settled.overflow_gain {cfg : Config} {c : Counter} {Q : Pairer A} {excess : Nat} (h : Settled cfg c Q excess st)
    (c' : Counter) :
    Q.overflow.get c' + (st.pairer.overflow.since st.overflowBaseline).get c' = st.pairer.overflow.get c' := by
  have hle := h.grows.overflow c'
  rw [PointAnomalies.get_since, h.overflow]
  exact Nat.add_sub_cancel' hle

variable (env st)

/-! ## A session -/

variable (H : HeapLib)

/-- Between flushes the collector-wide totals are those of the last flush. -/
theorem lastFlush_losses (prev : Reporter A F) (steps : List SessionStep)
    (h : st.lastLoss = prev.lastLoss ∧ st.reportedStalled = prev.stalledSlots) :
    (st.run H env steps).lastLoss = (lastFlush env H prev st steps).lastLoss ∧
      (st.run H env steps).reportedStalled = (lastFlush env H prev st steps).stalledSlots := by
  have hflush : ∀ (st : Reporter A F) f,
      (st.doFlush env f).reportedStalled = (st.doFlush env f).stalledSlots := by
    intro st f
    simp only [doFlush, writeCsv]
    split <;> rfl
  induction steps generalizing st prev with
  | nil => exact h
  | cons s steps ih =>
      cases s with
      | event e => exact ih (st.step H env (.event e)) prev h
      | flush f => exact ih (st.doFlush env f) (st.doFlush env f) ⟨rfl, hflush st f⟩
      | abandonAll => exact ih (st.step H env .abandonAll) prev h

/-- No loss is invisible in the file. At any flush of a session whose file is open: every row of a point, and the
overflow row, carries exactly what its counters gained since the flush before, or since the session began; a point
that gained anything has such a row in the file, and so has the overflow bucket; and what was dropped or stalled stands
on a row of the file. -/
theorem every_loss_is_written (hopen : env.csvOpen = true) (cfg : Config) (overheadCycles : UInt64)
    (reports : List (StageReport F)) (steps : List SessionStep) (f : FlushInput) :
    let st : Reporter A F := reset cfg overheadCycles reports
    let before := st.run H env steps
    let prev := lastFlush env H st st steps
    let last := st.run H env (steps ++ [.flush f])
    let fileRows := last.csv.drop before.csv.length
    (∀ r ∈ last.reports, r.overflow = false → ∀ c,
      (prev.pairer.anomaliesOf r.point).get c + r.interval.get c = (last.pairer.anomaliesOf r.point).get c) ∧
    (∀ r ∈ last.reports, r.overflow = true → ∀ c,
      prev.pairer.overflow.get c + r.interval.get c = last.pairer.overflow.get c) ∧
    (∀ p, (∃ c, (prev.pairer.anomaliesOf p).get c < (last.pairer.anomaliesOf p).get c) →
      ∃ r ∈ last.reports, r.overflow = false ∧ r.point = p ∧ r.pointName = env.pointName p ∧ csvRow r ∈ fileRows) ∧
    ((∃ c, prev.pairer.overflow.get c < last.pairer.overflow.get c) →
      ∃ r ∈ last.reports, r.overflow = true ∧ csvRow r ∈ fileRows) ∧
    (prev.lastLoss < f.loss ∨ prev.stalledSlots < f.stalledSlots →
      ∃ row ∈ fileRows, row.stats.dropped = f.loss - prev.lastLoss ∧
        row.stats.stalled = f.stalledSlots - prev.stalledSlots) := by
  intro st before prev last fileRows
  obtain ⟨excess, h, -⟩ := (settled_reset cfg overheadCycles reports .invalid).run env H hopen steps
  obtain ⟨hloss, hstalled⟩ := lastFlush_losses env st H st steps ⟨rfl, rfl⟩
  have hlast : last = before.doFlush env f := by
    simp only [last, before, run, List.foldl_append]
    rfl
  set newLosses := if f.loss > before.lastLoss then f.loss - before.lastLoss else 0 with hn
  set newStalled := f.stalledSlots - before.reportedStalled with hs
  have hnl : newLosses = f.loss - prev.lastLoss := by
    rw [hn, hloss]
    split
    · rfl
    · rename_i hle
      exact (Nat.sub_eq_zero_of_le (Nat.not_lt.mp hle)).symm
  have hns : newStalled = f.stalledSlots - prev.stalledSlots := by rw [hs, hstalled]
  have hrows : RowsTold env (before.swept f) newLosses newStalled last.reports := by
    rw [hlast]
    exact ((h.swept f).ready.told).perm (doFlush_reports env before f)
  have hpoint : ∀ p c, (prev.pairer.anomaliesOf p).get c + ((before.swept f).newAnomalies p).get c =
      (last.pairer.anomaliesOf p).get c := by
    intro p c
    rw [hlast, doFlush_pairer]
    exact (h.swept f).point_gain p c
  have hover : ∀ c, prev.pairer.overflow.get c +
      ((before.swept f).pairer.overflow.since (before.swept f).overflowBaseline).get c = last.pairer.overflow.get c := by
    intro c
    rw [hlast, doFlush_pairer]
    exact (h.swept f).overflow_gain c
  have hfile : fileRows = Reporter.fileRows env newLosses newStalled last.reports := by
    simp only [fileRows, hlast, doFlush_csv env before hopen f hn hs, List.drop_left]
  have hwritten : ∀ r ∈ last.reports, written r = true → csvRow r ∈ fileRows := by
    intro r hr hw
    rw [hfile]
    exact mem_fileRows hr hw
  refine ⟨fun r hr ho c => ?_, fun r hr ho c => ?_, fun p hp => ?_, fun ho => ?_, fun hgain => ?_⟩
  · rw [(hrows.points r hr ho).anomalies]
    exact hpoint r.point c
  · rw [hrows.overflow r hr ho]
    exact hover c
  · obtain ⟨c, hc⟩ := hp
    have hnew : 0 < ((before.swept f).newAnomalies p).get c := by
      have := hpoint p c
      omega
    obtain ⟨r, hr, ho, rfl, hw⟩ := hrows.told p (PointAnomalies.any_of_get hnew)
    exact ⟨r, hr, ho, rfl, (hrows.points r hr ho).name, hwritten r hr hw⟩
  · obtain ⟨c, hc⟩ := ho
    have hnew : 0 < ((before.swept f).pairer.overflow.since (before.swept f).overflowBaseline).get c := by
      have := hover c
      omega
    obtain ⟨r, hr, ho, hw⟩ := hrows.toldOverflow (PointAnomalies.any_of_get hnew)
    exact ⟨r, hr, ho, hwritten r hr hw⟩
  · rw [hfile, ← hnl, ← hns]
    refine hrows.losses_written ?_
    rw [hnl, hns]
    exact hgain.imp Nat.sub_ne_zero_of_lt Nat.sub_ne_zero_of_lt

/-- A stray end after a flush that told of another: the point's idle stage carries the new one. -/
theorem every_loss_is_written_strayEnds :
    let st : Reporter (Accumulator 4) Unit := reset ⟨2, 4⟩ 0 []
    let before := st.run sortingLib plainEnv strayEnds
    let last := st.run sortingLib plainEnv (strayEnds ++ [.flush ⟨none, 0, 0⟩])
    (last.pairer.anomaliesOf 1).orphan = 2 ∧
      ∃ r ∈ last.reports, r.point = 1 ∧ r.interval.orphan = 1 ∧ csvRow r ∈ last.csv.drop before.csv.length := by
  intro st before last
  obtain ⟨hrows, -, htold, -, -⟩ := every_loss_is_written plainEnv sortingLib rfl ⟨2, 4⟩ 0 [] strayEnds ⟨none, 0, 0⟩
  obtain ⟨r, hr, ho, hp, -, hfile⟩ := htold 1 ⟨.orphan, by decide⟩
  have hgain := hrows r hr ho .orphan
  have hprev : ((lastFlush plainEnv sortingLib st st strayEnds).pairer.anomaliesOf 1).orphan = 1 := by decide
  have hlast : (last.pairer.anomaliesOf 1).orphan = 2 := by decide
  rw [hp] at hgain
  refine ⟨hlast, r, hr, hp, ?_, hfile⟩
  have hsum : 1 + r.interval.orphan = 2 := hprev ▸ hlast ▸ hgain
  omega

end Reporter

end SlickPerfmon
