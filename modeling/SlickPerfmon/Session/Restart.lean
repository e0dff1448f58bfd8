import SlickPerfmon.Report.Lemmas.Alike
import SlickPerfmon.Session.Collector
import SlickPerfmon.Stats.Accumulator

/-!
# A session reports only itself

Two Collectors that start the same session go on alike, whatever each did before: with a collector thread every member
is set anew, and the rows of a flush do not depend on those the vector held. What is reported before the first flush is
what the sessions before left: without a thread, where no flush runs, and to a caller that `shutdown` does not let wait.
-/

namespace SlickPerfmon

open Library

variable {A F : Type}

/-! ## Two Collectors in the same session -/

/-- They agree on every member that a pass or a flush reads, but for the rows of earlier flushes. -/
structure Collector.Alike (c c' : Collector A F) : Prop where
  merger : c.merger = c'.merger
  rowPoints : c.rowPoints = c'.rowPoints
  pointBaseline : c.pointBaseline = c'.pointBaseline
  overflowBaseline : c.overflowBaseline = c'.overflowBaseline
  lastLoss : c.lastLoss = c'.lastLoss
  reportedStalled : c.reportedStalled = c'.reportedStalled
  labels : c.labels = c'.labels

namespace Collector

variable [Accum A] {H Hm : HeapLib} {c c' : Collector A F}

omit [Accum A] in
theorem Alike.setMerger (h : c.Alike c') (m : Merger A) :
    Collector.Alike { c with merger := m } { c' with merger := m } :=
  { h with merger := rfl }

omit [Accum A] in
/-- With a collector thread a session begins the same, whatever was before it. -/
theorem start_alike (c c' : Collector A F) {i : StartInput} (hmode : i.mode ≠ .sharedProducer) :
    (c.start i).Alike (c'.start i) := by
  unfold start
  simp only [if_neg hmode]
  exact ⟨rfl, rfl, rfl, rfl, rfl, rfl, rfl⟩

omit [Accum A] in
theorem start_keeps (c : Collector A F) (i : StartInput) :
    (c.start i).mode = i.mode ∧ (c.start i).started = true ∧ (c.start i).running = (i.mode != .sharedProducer) ∧
      (c.start i).reports = c.reports ∧ (c.start i).flushRequest = c.flushRequest ∧
      (c.start i).flushDone = c.flushDone := by
  unfold start
  simp only
  split
  · exact ⟨rfl, rfl, rfl, rfl, rfl, rfl⟩
  · exact ⟨rfl, rfl, rfl, rfl, rfl, rfl⟩

omit [Accum A] in
theorem threaded_start (c : Collector A F) {i : StartInput} :
    (c.start i).threaded = true ↔ i.mode ≠ .sharedProducer := by
  simp only [threaded, (c.start_keeps i).1, (c.start_keeps i).2.1, Bool.true_and, bne_iff_ne]

omit [Accum A] in
theorem Alike.pairer (h : c.Alike c') (f : Reporter.FlushInput) :
    (c.reporter.swept f).pairer = (c'.reporter.swept f).pairer := by
  simp only [Reporter.swept, reporter, h.merger]

theorem Alike.built (h : c.Alike c') (env : ReportEnv A F) (f : Reporter.FlushInput) (newLosses newStalled : Nat) :
    ((c.reporter.swept f).built env newLosses newStalled c.buildRows).Alike
      ((c'.reporter.swept f).built env newLosses newStalled c'.buildRows) := by
  have hsame : (c'.reporter.swept f).built env newLosses newStalled c'.buildRows =
      (c.reporter.swept f).built env newLosses newStalled c'.buildRows := by
    obtain ⟨mode, started, merger, rowPoints, pointBaseline, overflowBaseline⟩ := c
    obtain ⟨mode', started', merger', rowPoints', pointBaseline', overflowBaseline'⟩ := c'
    obtain ⟨rfl, rfl, rfl, rfl, rfl, rfl, rfl⟩ := h
    rfl
  rw [hsame]
  exact Reporter.built_alike env _ newLosses newStalled c.buildRows c'.buildRows

/-- A flush of two such Collectors publishes the same rows. -/
theorem Alike.doFlush (h : c.Alike c') (o : FlushOutside A F) :
    (c.doFlush o).Alike (c'.doFlush o) ∧ (c.doFlush o).reports = (c'.doFlush o).reports := by
  have hb := h.built o.env ⟨o.sweep, o.loss + c'.merger.ringLost, c'.merger.stalledSlots⟩
  have hP := h.pairer ⟨o.sweep, o.loss + c'.merger.ringLost, c'.merger.stalledSlots⟩
  unfold Collector.doFlush
  simp only [h.merger, h.lastLoss, h.reportedStalled, h.labels, hP]
  refine ⟨⟨rfl, (hb _ _).rowPoints, (hb _ _).baseline, rfl, rfl, rfl, ?_⟩, ?_⟩
  · exact congrArg (fun rows => (LabelCaches.labelRows o.env rows _).1) (hb _ _).rows
  · exact congrArg (fun rows => (LabelCaches.labelRows o.env rows _).2.mergeSort _) (hb _ _).rows

theorem Alike.mergePass (h : c.Alike c') (env : World) (watermark : UInt64) :
    Collector.Alike { c with merger := c.merger.mergePass H env Hm watermark }
      { c' with merger := c'.merger.mergePass H env Hm watermark } := by
  rw [h.merger]
  exact h.setMerger _

/-- They publish the same rows at the end of the session, or for both it does not end yet. -/
theorem Alike.endRun (h : c.Alike c') (env : World) (i : ShutdownInput A F) :
    Option.Rel (fun c₁ c₁' => c₁.reports = c₁'.reports) (c.endRun H Hm env i) (c'.endRun H Hm env i) := by
  unfold Collector.endRun
  rw [h.merger]
  cases c'.merger.finalDrain H env Hm i.rounds i.watermark with
  | none => exact .none
  | some m => exact .some ((h.setMerger _).doFlush i.flush).2

/-- No flush that was asked for is left over. -/
theorem endRun_keeps {c c₁ : Collector A F} {env : World} {i : ShutdownInput A F}
    (h : c.endRun H Hm env i = some c₁) :
    c₁.mode = c.mode ∧ c₁.running = c.running ∧ c₁.flushRequest = c.flushRequest ∧ c₁.flushDone = c.flushRequest := by
  unfold Collector.endRun at h
  obtain ⟨m, -, rfl⟩ := Option.map_eq_some_iff.mp h
  exact ⟨rfl, rfl, rfl, rfl⟩

end Collector

/-! ## Two runs -/

section Runs

variable {Caller : Type}

/-- Where two callers stand, the first in a session whose flushes are counted from `k`. -/
inductive CallerTwin (k : Nat) : CallerWait → CallerWait → Prop
  | idle : CallerTwin k .idle .idle
  | ready : CallerTwin k .ready .ready
  | waitDone {gen : Nat} (hpos : 0 < gen) : CallerTwin k (.waitDone (k + gen)) (.waitDone gen)

/-- No flush has been done in this session, so that no caller can have returned. -/
structure Unread (r : CollectorRun Caller A F) : Prop where
  threaded : r.collector.threaded = true
  done : r.collector.flushDone = 0
  callers : ∀ caller, r.callers caller ≠ .ready

/-- A caller answers before its flush is done. -/
def CollectorAction.givesUp : CollectorAction Caller A F → Bool
  | .giveUp _ _ => true
  | _ => false

/-- Two runs of the same session, the first with `k` more flushes asked for and done. Where no caller gives up, their
rows may differ until the first flush. -/
structure Twin (patient : Prop) (k : Nat) (r r' : CollectorRun Caller A F) : Prop where
  world : r.world = r'.world
  mode : r.collector.mode = r'.collector.mode
  started : r.collector.started = r'.collector.started
  running : r.collector.running = r'.collector.running
  alike : r'.collector.threaded = true → r.collector.Alike r'.collector
  request : r.collector.flushRequest = k + r'.collector.flushRequest
  done : r.collector.flushDone = k + r'.collector.flushDone
  callers : ∀ caller, CallerTwin k (r.callers caller) (r'.callers caller)
  results : r.results = r'.results
  rows : r.collector.reports = r'.collector.reports ∨ patient ∧ Unread r'

namespace Twin

variable {patient : Prop} {k : Nat} {r r' : CollectorRun Caller A F}

theorem threaded (h : Twin patient k r r') : r.collector.threaded = r'.collector.threaded := by
  unfold Collector.threaded
  rw [h.mode, h.started]

/-- Without a collector thread the rows are the same. -/
theorem rows_of_not_threaded (h : Twin patient k r r') (hno : r'.collector.threaded = false) :
    r.collector.reports = r'.collector.reports := by
  rcases h.rows with hrows | hunread
  · exact hrows
  · have hthreaded := hunread.2.threaded
    rw [hno] at hthreaded
    cases hthreaded

/-- A step of the collector thread that leaves the same rows, or none yet. -/
theorem setCollector (h : Twin patient k r r') {c c' : Collector A F} (hmode : c.mode = r.collector.mode)
    (hmode' : c'.mode = r'.collector.mode) (hstarted : c.started = r.collector.started)
    (hstarted' : c'.started = r'.collector.started) (hrunning : c.running = c'.running) (halike : c.Alike c')
    (hrequest : c.flushRequest = k + c'.flushRequest)
    (hdone : c.flushDone = k + c'.flushDone)
    (hrows : c.reports = c'.reports ∨ patient ∧ Unread (r'.setCollector c')) :
    Twin patient k (r.setCollector c) (r'.setCollector c') where
  world := h.world
  mode := by simp only [CollectorRun.setCollector, hmode, hmode', h.mode]
  started := by simp only [CollectorRun.setCollector, hstarted, hstarted', h.started]
  running := hrunning
  alike _ := halike
  request := hrequest
  done := hdone
  callers := h.callers
  results := h.results
  rows := hrows

/-- The same session, started on any two Collectors. -/
theorem session {c c' : Collector A F} (i : StartInput) (hrequest : c.flushRequest = k + c'.flushRequest)
    (hdone : c.flushDone = k + c'.flushDone)
    (hrows : c.reports = c'.reports ∨ patient ∧ i.mode ≠ .sharedProducer ∧ c'.flushDone = 0) :
    Twin patient k (c.session i : CollectorRun Caller A F) (c'.session i) := by
  obtain ⟨hm, hs, hrun, hr, hq, hd⟩ := c.start_keeps i
  obtain ⟨hm', hs', hrun', hr', hq', hd'⟩ := c'.start_keeps i
  exact
    { world := rfl
      mode := hm.trans hm'.symm
      started := hs.trans hs'.symm
      running := hrun.trans hrun'.symm
      alike := fun h => Collector.start_alike c c' (c'.threaded_start.mp h)
      request := by simp only [Collector.session, hq, hq', hrequest]
      done := by simp only [Collector.session, hd, hd', hdone]
      callers := fun _ => .idle
      results := rfl
      rows := by
        rcases hrows with hrows | ⟨hpatient, hmode, hzero⟩
        · exact .inl (by simp only [Collector.session, hr, hr', hrows])
        · exact .inr ⟨hpatient, c'.threaded_start.mpr hmode, hd'.trans hzero, nofun⟩ }

/-- A flush is asked for. -/
theorem raise (h : Twin patient k r r') :
    Twin patient k (r.setCollector { r.collector with flushRequest := r.collector.flushRequest + 1 })
      (r'.setCollector { r'.collector with flushRequest := r'.collector.flushRequest + 1 }) where
  world := h.world
  mode := h.mode
  started := h.started
  running := h.running
  alike hthreaded := { h.alike hthreaded with }
  request := by
    have hrequest := h.request
    simp only [CollectorRun.setCollector]
    omega
  done := h.done
  callers := h.callers
  results := h.results
  rows := h.rows.imp_right fun ⟨hpatient, hunread⟩ => ⟨hpatient, { hunread with }⟩

/-- A call whose wait is over finds the same rows. -/
theorem rows_of_done (h : Twin patient k r r') {gen : Nat} (hpos : 0 < gen) (hdone : gen ≤ r'.collector.flushDone) :
    r.collector.reports = r'.collector.reports := by
  rcases h.rows with hrows | hunread
  · exact hrows
  · have hzero := hunread.2.done
    omega

variable [DecidableEq Caller]

theorem setCaller (h : Twin patient k r r') (caller : Caller) {w w' : CallerWait} (hw : CallerTwin k w w')
    (hready : w' = .ready → r.collector.reports = r'.collector.reports) :
    Twin patient k { r with callers := Function.update r.callers caller w }
      { r' with callers := Function.update r'.callers caller w' } where
  world := h.world
  mode := h.mode
  started := h.started
  running := h.running
  alike := h.alike
  request := h.request
  done := h.done
  callers other := by
    by_cases ho : other = caller
    · subst ho
      simpa using hw
    · simpa [Function.update_of_ne ho] using h.callers other
  results := h.results
  rows := by
    rcases h.rows with hrows | ⟨hpatient, hunread⟩
    · exact .inl hrows
    · by_cases hw' : w' = .ready
      · exact .inl (hready hw')
      · refine .inr ⟨hpatient, hunread.threaded, hunread.done, fun other => ?_⟩
        by_cases ho : other = caller
        · subst ho
          simpa using hw'
        · simpa [Function.update_of_ne ho] using hunread.callers other

theorem call (h : Twin patient k r r') (caller : Caller) : Twin patient k (r.call caller) (r'.call caller) := by
  unfold CollectorRun.call
  rw [h.threaded]
  cases hthreaded : r'.collector.threaded with
  | true =>
      have hgen : r.collector.flushRequest + 1 = k + (r'.collector.flushRequest + 1) := by rw [h.request, Nat.add_assoc]
      simp only [if_true]
      refine h.raise.setCaller caller ?_ nofun
      rw [hgen]
      exact .waitDone (Nat.succ_pos _)
  | false =>
      exact h.setCaller caller .ready fun _ => h.rows_of_not_threaded hthreaded

variable [Accum A] [Inhabited F] {H Hm : HeapLib}

omit [Accum A] in
theorem answer (h : Twin patient k r r') (caller : Caller) (q : Query) (hrows : r.collector.reports = r'.collector.reports) :
    Twin patient k (r.answer caller q) (r'.answer caller q) := by
  have hanswer : r.collector.answer q = r'.collector.answer q := by
    cases q <;> simp only [Collector.answer, Collector.snapshot, hrows]
  have hidle := h.setCaller caller .idle nofun
  exact
    { hidle with
      alike := h.alike
      results := by simp only [CollectorRun.answer, h.results, hanswer]
      rows := .inl hrows }

omit [DecidableEq Caller] [Accum A] [Inhabited F] in
theorem failedStart (h : Twin patient k r r') (hstopped : r'.collector.started = false) (mode : Mode) :
    Twin patient k (r.setCollector { r.collector with mode := mode }) (r'.setCollector { r'.collector with mode := mode }) :=
  have hno (m : Mode) : Collector.threaded { r'.collector with mode := m } = false := by
    simp only [Collector.threaded, hstopped, Bool.false_and]
  { world := h.world
    mode := rfl
    started := h.started
    running := h.running
    alike := fun hthreaded => absurd hthreaded (by rw [CollectorRun.setCollector, hno]; decide)
    request := h.request
    done := h.done
    callers := h.callers
    results := h.results
    rows := .inl (h.rows_of_not_threaded (hno _)) }

omit [DecidableEq Caller] [Inhabited F] in
theorem drainOnce (h : Twin patient k r r') (hthreaded : r'.collector.threaded = true) (watermark : UInt64) :
    Twin patient k (r.setCollector (r.mergePass H Hm watermark)) (r'.setCollector (r'.mergePass H Hm watermark)) := by
  have halike : (r.mergePass H Hm watermark).Alike (r'.mergePass H Hm watermark) := by
    unfold CollectorRun.mergePass
    rw [h.world]
    exact (h.alike hthreaded).mergePass r'.world watermark
  exact h.setCollector rfl rfl rfl rfl h.running halike h.request h.done
    (h.rows.imp_right fun ⟨hpatient, hunread⟩ => ⟨hpatient, { hunread with }⟩)

omit [DecidableEq Caller] [Inhabited F] in
theorem flush (h : Twin patient k r r') (hthreaded : r'.collector.threaded = true) (o : FlushOutside A F) :
    Twin patient k (r.setCollector (r.collector.doFlush o)) (r'.setCollector (r'.collector.doFlush o)) := by
  obtain ⟨halike, hrows⟩ := (h.alike hthreaded).doFlush o
  exact h.setCollector rfl rfl rfl rfl h.running halike h.request h.done (.inl hrows)

omit [DecidableEq Caller] [Inhabited F] in
theorem serve (h : Twin patient k r r') (hthreaded : r'.collector.threaded = true) (watermark : UInt64)
    (o : FlushOutside A F) :
    Twin patient k (r.setCollector (r.serve H Hm watermark o)) (r'.setCollector (r'.serve H Hm watermark o)) := by
  have hpass : Twin patient k (r.setCollector (r.mergePass H Hm watermark)) (r'.setCollector (r'.mergePass H Hm watermark)) :=
    h.drainOnce hthreaded watermark
  obtain ⟨halike, hrows⟩ := (hpass.alike hthreaded).doFlush o
  exact h.setCollector rfl rfl rfl rfl h.running { halike with } h.request h.request (.inl hrows)

omit [DecidableEq Caller] [Accum A] [Inhabited F] in
theorem stop (h : Twin patient k r r') :
    Twin patient k (r.setCollector r.collector.stop) (r'.setCollector r'.collector.stop) where
  world := h.world
  mode := h.mode
  started := h.started
  running := rfl
  alike hthreaded := { h.alike hthreaded with }
  request := h.request
  done := h.done
  callers := h.callers
  results := h.results
  rows := h.rows.imp_right fun ⟨hpatient, hunread⟩ => ⟨hpatient, { hunread with }⟩

omit [DecidableEq Caller] [Inhabited F] in
/-- The end of the session: what was published last is the same in both. -/
theorem shutdown (h : Twin patient k r r') (i : ShutdownInput A F) :
    Option.Rel (Twin patient k) ((r.collector.shutdown H Hm r.world i).map r.setCollector)
      ((r'.collector.shutdown H Hm r'.world i).map r'.setCollector) := by
  have hreleased : ∀ {c c' : Collector A F}, c.mode = r.collector.mode → c'.mode = r'.collector.mode →
      c.running = c'.running → c.flushRequest = k + c'.flushRequest → c.flushDone = k + c'.flushDone →
      c.reports = c'.reports → Twin patient k (r.setCollector c.release) (r'.setCollector c'.release) :=
    fun hmode hmode' hrunning hrequest hdone hrows =>
      { world := h.world
        mode := (hmode.trans h.mode).trans hmode'.symm
        started := rfl
        running := hrunning
        alike := nofun
        request := hrequest
        done := hdone
        callers := h.callers
        results := h.results
        rows := .inl hrows }
  unfold Collector.shutdown
  rw [h.threaded, h.started, h.world]
  cases hthreaded : r'.collector.threaded with
  | true =>
      have hended : Option.Rel _ (r.collector.stop.endRun H Hm r'.world i) (r'.collector.stop.endRun H Hm r'.world i) :=
        (h.stop.alike hthreaded).endRun r'.world i
      cases hc : r.collector.stop.endRun H Hm r'.world i with
      | none =>
          rw [hc] at hended
          cases hc' : r'.collector.stop.endRun H Hm r'.world i with
          | none => exact .none
          | some c' => rw [hc'] at hended; cases hended
      | some c =>
          rw [hc] at hended
          cases hc' : r'.collector.stop.endRun H Hm r'.world i with
          | none => rw [hc'] at hended; cases hended
          | some c' =>
              rw [hc'] at hended
              cases hended with
              | some hrows =>
                  obtain ⟨hmode, hrunning, hrequest, hdone⟩ := Collector.endRun_keeps hc
                  obtain ⟨hmode', hrunning', hrequest', hdone'⟩ := Collector.endRun_keeps hc'
                  refine .some (hreleased hmode hmode' (hrunning.trans hrunning'.symm) ?_ ?_ hrows)
                  · rw [hrequest, hrequest']
                    exact h.request
                  · rw [hdone, hdone']
                    exact h.request
  | false =>
      have hrows := h.rows_of_not_threaded hthreaded
      simp only [Bool.false_eq_true, if_false]
      split
      · exact .some (hreleased rfl rfl h.running h.request h.done hrows)
      · exact .some h

/-- Every step goes the same way in both. -/
theorem step (h : Twin patient k r r') (a : CollectorAction Caller A F) (hpatient : patient → a.givesUp = false) :
    Option.Rel (Twin patient k) (r.step H Hm a) (r'.step H Hm a) := by
  cases a with
  | start i =>
      simp only [CollectorRun.step, h.started]
      split
      · exact .none
      · rename_i hstopped
        have hno : r'.collector.threaded = false := by simp only [Collector.threaded, hstopped, Bool.false_and]
        exact .some (session i h.request h.done (.inl (h.rows_of_not_threaded hno)))
  | failedStart mode =>
      by_cases hstarted : r'.collector.started = true
      · simp only [CollectorRun.step, if_pos hstarted, if_pos (h.started.trans hstarted)]
        exact .none
      · simp only [CollectorRun.step, if_neg hstarted, if_neg (h.started ▸ hstarted)]
        exact .some (h.failedStart (Bool.not_eq_true _ ▸ hstarted) mode)
  | drainOnce watermark =>
      simp only [CollectorRun.step, h.threaded]
      split
      · exact .some (h.drainOnce ‹_› watermark)
      · exact .none
  | flush o =>
      simp only [CollectorRun.step, h.threaded]
      split
      · exact .some (h.flush ‹_› o)
      · exact .none
  | serve watermark o =>
      have hdue : r.collector.flushRequest ≠ r.collector.flushDone ↔
          r'.collector.flushRequest ≠ r'.collector.flushDone := by
        rw [h.request, h.done]
        omega
      simp only [CollectorRun.step, h.threaded, hdue]
      split
      · rename_i hserve
        exact .some (h.serve hserve.1 watermark o)
      · exact .none
  | call caller =>
      have hcaller := h.callers caller
      simp only [CollectorRun.step]
      generalize r.callers caller = w, r'.callers caller = w' at hcaller
      cases hcaller with
      | idle => exact .some (h.call caller)
      | ready => exact .none
      | waitDone hpos => exact .none
  | answer caller q =>
      have hcaller := h.callers caller
      have hready := fun hw : r'.callers caller = .ready =>
        h.rows.resolve_right fun hunread => hunread.2.callers caller hw
      simp only [CollectorRun.step]
      generalize r.callers caller = w, r'.callers caller = w' at hcaller hready
      cases hcaller with
      | idle => exact .none
      | ready => exact .some (h.answer caller q (hready rfl))
      | @waitDone gen hpos =>
          simp only [h.done, Nat.add_le_add_iff_left]
          split
          · exact .some (h.answer caller q (h.rows_of_done hpos ‹_›))
          · exact .none
  | stop =>
      simp only [CollectorRun.step, h.threaded]
      split
      · exact .some h.stop
      · exact .none
  | giveUp caller q =>
      have hcaller := h.callers caller
      have hrows := h.rows.resolve_right fun hunread => Bool.noConfusion (hpatient hunread.1)
      simp only [CollectorRun.step, h.running]
      generalize r.callers caller = w, r'.callers caller = w' at hcaller
      cases hcaller with
      | idle => exact .none
      | ready => exact .none
      | waitDone hpos =>
          simp only
          split
          · exact .some (h.answer caller q hrows)
          · exact .none
  | shutdown i => exact h.shutdown i

end Twin

/-- Without a collector thread no flush is left to be done. -/
def NoneDue (r : CollectorRun Caller A F) : Prop :=
  r.collector.threaded = false → r.collector.flushDone = r.collector.flushRequest

variable [DecidableEq Caller] [Accum A] [Inhabited F] {H Hm : HeapLib} {r r' : CollectorRun Caller A F}

theorem NoneDue.step (h : NoneDue r) {a : CollectorAction Caller A F} (hs : r.step H Hm a = some r') :
    NoneDue r' := by
  cases a with
  | start i =>
      simp only [CollectorRun.step, Option.ite_none_left_eq_some, Option.some.injEq] at hs
      obtain ⟨hstopped, rfl⟩ := hs
      intro _
      obtain ⟨-, -, -, -, hrequest, hdone⟩ := r.collector.start_keeps i
      simp only [Collector.session, hrequest, hdone]
      exact h (by simp only [Collector.threaded, hstopped, Bool.false_and])
  | failedStart mode =>
      simp only [CollectorRun.step, Option.ite_none_left_eq_some, Option.some.injEq] at hs
      obtain ⟨hstopped, rfl⟩ := hs
      exact fun _ => h (by simp only [Collector.threaded, hstopped, Bool.false_and])
  | drainOnce watermark =>
      simp only [CollectorRun.step, Option.ite_none_right_eq_some, Option.some.injEq] at hs
      obtain ⟨-, rfl⟩ := hs
      exact h
  | flush o =>
      simp only [CollectorRun.step, Option.ite_none_right_eq_some, Option.some.injEq] at hs
      obtain ⟨-, rfl⟩ := hs
      exact h
  | serve watermark o =>
      simp only [CollectorRun.step, Option.ite_none_right_eq_some, Option.some.injEq] at hs
      obtain ⟨-, rfl⟩ := hs
      exact fun _ => rfl
  | call caller =>
      simp only [CollectorRun.step] at hs
      split at hs
      · cases hs
        intro hno
        unfold CollectorRun.call at hno ⊢
        by_cases hthreaded : r.collector.threaded = true
        · rw [if_pos hthreaded] at hno
          exact absurd (hthreaded.symm.trans hno) (by decide)
        · rw [if_neg hthreaded]
          exact h (Bool.not_eq_true _ ▸ hthreaded)
      · cases hs
  | answer caller q =>
      have hanswer : r' = r.answer caller q := by
        simp only [CollectorRun.step] at hs
        split at hs
        · cases hs
        · cases hs
          rfl
        · exact (Option.some.inj (Option.ite_none_right_eq_some.mp hs).2).symm
      rw [hanswer]
      exact h
  | stop =>
      simp only [CollectorRun.step, Option.ite_none_right_eq_some, Option.some.injEq] at hs
      obtain ⟨-, rfl⟩ := hs
      exact h
  | giveUp caller q =>
      have hanswer : r' = r.answer caller q := by
        simp only [CollectorRun.step] at hs
        split at hs
        · exact (Option.some.inj (Option.ite_none_right_eq_some.mp hs).2).symm
        · cases hs
      rw [hanswer]
      exact h
  | shutdown i =>
      obtain ⟨c, hc, rfl⟩ := Option.map_eq_some_iff.mp hs
      intro _
      unfold Collector.shutdown at hc
      by_cases hthreaded : r.collector.threaded = true
      · rw [if_pos hthreaded] at hc
        obtain ⟨c₁, hc₁, rfl⟩ := Option.map_eq_some_iff.mp hc
        obtain ⟨-, -, hrequest, hdone⟩ := Collector.endRun_keeps hc₁
        exact hdone.trans hrequest.symm
      · rw [if_neg hthreaded] at hc
        have hdone := h (Bool.not_eq_true _ ▸ hthreaded)
        split at hc
        · cases hc
          exact hdone
        · cases hc
          exact hdone

end Runs

end SlickPerfmon
