import SlickPerfmon.Merge.Spans
import SlickPerfmon.Session.FlushRows

/-!
# A session measures its spans

From the rings to the snapshot: a session of passes, periodic flushes and flushes that callers asked for, in any order,
reports each sample of its complete spans once and tells the statistics of all of them once their stamps are read.
-/

namespace SlickPerfmon

open Library

/-- The overhead that a session takes out of each transition. -/
def StartInput.charged (i : StartInput) : UInt64 := if i.subtractOverhead then i.overhead else 0

/-! ## The loop of the final drain -/

section Idle

variable {A : Type}

/-- Nothing but slots that were never published lay between them. -/
structure Merger.Idle (m m' : Merger A) : Prop where
  rest : m' = { m with
    cursor := m'.cursor, stalledSince := m'.stalledSince, stalledSlots := m'.stalledSlots, time := m'.time
    skipped := m'.skipped }
  cursor : m.cursor ≤ m'.cursor
  time : m.time ≤ m'.time
  skipped : m'.skipped = m.skipped ++ List.range' m.cursor (m'.cursor - m.cursor)

namespace Merger.Idle

variable {m m' m'' : Merger A}

theorem trans (h : m.Idle m') (h' : m'.Idle m'') : m.Idle m'' where
  rest := by rw [h'.rest, h.rest]
  cursor := h.cursor.trans h'.cursor
  time := h.time.trans h'.time
  skipped := by
    have hfirst := h.cursor
    have hsecond := h'.cursor
    rw [h'.skipped, h.skipped, List.append_assoc]
    congr 1
    rw [show m''.cursor - m.cursor = (m'.cursor - m.cursor) + (m''.cursor - m'.cursor) by omega,
      ← List.range'_append_1, Nat.add_sub_cancel' hfirst]

theorem later (m : Merger A) (n : Nat) (stalledSince : Option Nat) :
    m.Idle { m with time := m.time + n, stalledSince := stalledSince } where
  rest := rfl
  cursor := Nat.le_refl _
  time := Nat.le_add_right _ _
  skipped := by simp

theorem skipHole (m : Merger A) : m.Idle m.skipHole where
  rest := rfl
  cursor := Nat.le_succ _
  time := Nat.le_refl _
  skipped := by simp [Merger.skipHole]

end Merger.Idle

/-- With nothing published the loop of the final drain only steps over what was reserved. -/
theorem finalDrainLoop_idle [Accum A] (H : HeapLib) {env : World} (hnone : ∀ t k, ¬env.Published t k)
    (target deadline rounds : Nat) {m m' : Merger A}
    (h : Merger.finalDrainLoop H env target deadline rounds m = some m') : m.Idle m' := by
  induction rounds generalizing m with
  | zero => cases h
  | succ rounds ih =>
      have hzero : env.read m.time m.cursor = 0 := Nat.eq_zero_of_not_pos (hnone m.time m.cursor)
      have hread : m.readSharedOnce H env = ({ m with time := m.time + 1 }, false) := by
        unfold Merger.readSharedOnce
        simp [hzero]
      rw [Merger.finalDrainLoop, hread] at h
      split at h
      · have hlater := Merger.Idle.later m 1 m.stalledSince
        simp only at h
        split at h
        · cases h
          exact hlater
        · have hclock := hlater.trans (.later _ 1 m.stalledSince)
          split at h
          · exact hclock.trans (ih h)
          · exact (hclock.trans (.skipHole _)).trans (ih h)
      · cases h
        exact .later m' 0 m'.stalledSince

variable {env : World} {m₀ m m' : Merger A} {W : UInt64}

theorem Paused.idle (hp : Paused env m₀ W m) (hsound : env.Sound) (hnone : ∀ t k, ¬env.Published t k)
    (h : m.Idle m') : Paused env m₀ W m' := by
  have hring : m'.ringCursor = m.ringCursor := by rw [h.rest]
  have hwait : m'.ringWaitTs = m.ringWaitTs := by rw [h.rest]
  have hstage : m'.sharedStage = m.sharedStage := by rw [h.rest]
  have htaken : m'.taken = m.taken := by rw [h.rest]
  have hdelivered : m'.delivered = m.delivered := by
    rw [h.rest]
    rfl
  have hcursor := h.cursor
  obtain ⟨hlo, htakenBelow, hcovered⟩ := hp.slots
  refine
    { delivered := ?_
      staged := by rw [hstage]; exact hp.staged
      cursors := fun r hr => ?_
      waiting := fun r hr => ?_
      slots := ⟨hlo.trans hcursor, fun k hk => ?_, fun k hk hlt => ?_⟩
      time := hp.time.trans h.time
      below := by rw [hdelivered]; exact hp.below
      ringsBeyond := by rw [hring]; exact hp.ringsBeyond
      stageBeyond := by rw [hstage]; exact hp.stageBeyond
      slotsBeyond := fun k t _ hpub => absurd hpub (hnone t k) }
  · obtain ⟨horder, hrings, hsources, hshared, honce, -⟩ := hp.delivered
    exact
      { order := by rw [hdelivered]; exact horder
        rings := by rw [hdelivered, hring]; exact hrings
        sources := by rw [hdelivered]; exact hsources
        shared := by rw [hdelivered, hstage, htaken]; exact hshared
        once := by rw [htaken]; exact honce
        skipped := fun k _ => ⟨m'.time, hp.time.trans h.time, Nat.le_refl _, hnone _ k⟩ }
  · obtain ⟨hfirst, hlast⟩ := hp.cursors r hr
    rw [hring]
    exact ⟨hfirst, hlast.trans (hsound.heads r _ _ h.time)⟩
  · rw [Waiting, hring, hwait]
    refine (hp.waiting r hr).imp_right fun hstamp => ?_
    exact ⟨hstamp.1.trans_le (hsound.heads r _ _ h.time), hstamp.2⟩
  · rw [htaken] at hk
    exact (htakenBelow k hk).trans_le hcursor
  · rw [htaken, h.skipped]
    rcases Nat.lt_or_ge k m.cursor with hold | hnew
    · exact (hcovered k hk hold).imp_right fun hskipped => List.mem_append_left _ hskipped
    · exact .inr (List.mem_append_right _ (List.mem_range'_1.mpr ⟨hnew, by omega⟩))

end Idle

section Measurement

variable {Caller A F : Type} [DecidableEq Caller] [Accum A] [Inhabited F] (H Hm : HeapLib)

/-! ## Clean runs -/

/-- An action whose pass laps no ring and comes after the stamps below its watermark, and whose sweep finds no span too
old. The session starts and ends elsewhere. -/
def CollectorRun.Clean (m₀ : Merger A) (stop : Nat → Nat) (r : CollectorRun Caller A F) :
    CollectorAction Caller A F → Prop
  | .drainOnce watermark => SpanPass H r.world m₀ stop r.collector.merger (watermark, Hm)
  | .flush o => Pairer.Spares o.sweep r.collector.merger.pairer
  | .serve watermark o =>
      SpanPass H r.world m₀ stop r.collector.merger (watermark, Hm) ∧
        Pairer.Spares o.sweep (r.mergePass H Hm watermark).merger.pairer
  | .call _ => True
  | .answer _ _ => True
  | .stop => True
  | .giveUp _ _ => True
  | _ => False

omit [Inhabited F] in
/-- The end of a session whose last pass is such. -/
structure CleanEnd (env : World) (m₀ : Merger A) (stop : Nat → Nat) (m : Merger A) (si : ShutdownInput A F) : Prop where
  published : ∀ r, r < env.rings → ∀ i, m₀.ringCursor r ≤ i → i < stop r →
    (env.log r i).timestamp < si.watermark → i < env.head m.time r
  unlapped : ∀ m', m.finalDrain H env Hm si.rounds si.watermark = some m' → Unlapped env m m'

/-- The rows that an action publishes. -/
def rowsPublished (r : CollectorRun Caller A F) : CollectorAction Caller A F → List (StageReport F)
  | .flush _ => r.collector.reports
  | .serve _ _ => r.collector.reports
  | _ => []

/-- A run of such actions, and the rows it has published. -/
inductive CleanRun (m₀ : Merger A) (stop : Nat → Nat) (r₀ : CollectorRun Caller A F) :
    List (StageReport F) → CollectorRun Caller A F → Prop
  | refl : CleanRun m₀ stop r₀ [] r₀
  | step {rows : List (StageReport F)} {r r' : CollectorRun Caller A F} (a : CollectorAction Caller A F)
      (h : CleanRun m₀ stop r₀ rows r) (hclean : r.Clean H Hm m₀ stop a)
      (hstep : (collectorSystem Caller A F H Hm).step a r = some r') :
      CleanRun m₀ stop r₀ (rows ++ rowsPublished r' a) r'

/-! ## What holds along a clean run -/

omit [Inhabited F] in
/-- In the session that `i` began with merger `m₀`, `rows` being those published so far. -/
structure Measuring (i : StartInput) (m₀ : Merger A) (rows : List (StageReport F)) (c : Collector A F) : Prop where
  paused : ∃ W, Paused i.world m₀ W c.merger
  quiet : c.merger.taken = []
  intact : c.merger.ringLost = 0
  flushed : Flushed H i.tables i.charged (c.merger.delivered.map Prod.snd) (fun key => Reporter.reportedOf key rows)
    c.merger.pairer
  settled : c.Settled i.tables

variable {H Hm} {i : StartInput} {m₀ : Merger A} {rows : List (StageReport F)} {c : Collector A F}
  {spans : List CompleteSpan} {stop : Nat → Nat}

omit [Inhabited F] in
theorem grows_events (P : Pairer A) (trace : List (Option Nat × Sample)) :
    P.Grows (trace.foldl (fun P x => P.onEvent H x.2) P) := by
  induction trace generalizing P with
  | nil => exact .refl P
  | cons x trace ih => exact (Pairer.grows_onEvent H P x.2).trans (ih (P.onEvent H x.2))

namespace Measuring

omit [Inhabited F] [Accum A] in
theorem started (c : Collector A F) {i : StartInput} (hsound : i.world.Sound) (hmode : i.mode ≠ .sharedProducer) :
    Started i.world (c.start i).merger ∧ (c.start i).merger.ringLost = 0 ∧
      (c.start i).merger.pairer = (Pairer.reset i.tables).setOverhead i.charged := by
  rw [Collector.start, if_neg hmode]
  refine ⟨⟨rfl, fun _ => rfl, fun r hr => ?_, rfl, rfl, rfl⟩, rfl, ?_⟩
  · change (if r < i.world.rings then i.world.head r r else 0) ≤ i.world.head (i.world.rings + 1) r
    rw [if_pos hr]
    exact hsound.heads r r _ (by omega)
  · rw [StartInput.charged]
    cases hsub : i.subtractOverhead with
    | false => simp only [Collector.beginRun, Collector.resetSessionCounters, hsub]; rfl
    | true => simp only [Collector.beginRun, Collector.resetSessionCounters, hsub]; rfl

omit [Inhabited F] in
theorem start (c : Collector A F) (hsound : i.world.Sound) (hmode : i.mode ≠ .sharedProducer) :
    Measuring H i (c.start i).merger [] (c.start i) := by
  obtain ⟨hstarted, hlost, hpairer⟩ := started c hsound hmode
  refine ⟨⟨0, hstarted.paused⟩, hstarted.fresh.2.1, hlost, ?_, Collector.Settled.start c hmode⟩
  rw [hpairer, Merger.delivered, hstarted.fresh.1]
  exact Flushed.start i.tables i.charged

omit [Inhabited F] in
/-- A pass. -/
theorem pass (h : Measuring H i m₀ rows c) (hsound : i.world.Sound) (hrings : i.world.rings ≠ 0)
    (hspread : Spread i.world m₀ spans stop) {watermark : UInt64}
    (hpass : SpanPass H i.world m₀ stop c.merger (watermark, Hm)) :
    Measuring H i m₀ rows { c with merger := c.merger.mergePass H i.world Hm watermark } ∧
      Complete i.world m₀ c.merger (c.merger.mergePass H i.world Hm watermark) watermark := by
  obtain ⟨W, hp⟩ := h.paused
  obtain ⟨⟨trace, hpd⟩, htimely⟩ := hpass.passed hsound hrings hspread hp
  obtain ⟨hpaused, hcomplete⟩ := hpd.next hp (fun r hr t => hspread.ascending hr t) htimely
  have hlost := (readsOn_mergePass H i.world Hm watermark c.merger).intact hpass.unlapped
  have hflushed := h.flushed.events (trace.map Prod.snd)
  rw [← List.map_append, ← hpd.hands.delivered, List.foldl_map, ← hpd.hands.pairer] at hflushed
  refine ⟨⟨hpaused, ?_, hlost.trans h.intact, hflushed, ?_⟩, hcomplete⟩
  · rw [hpd.shared.taken, h.quiet]
    rfl
  · refine h.settled.setMerger hflushed.balanced ?_
    rw [hpd.hands.pairer]
    exact grows_events c.merger.pairer trace

omit [Inhabited F] in
/-- A flush. -/
theorem flush (h : Measuring H i m₀ rows c) (hl : Accum.Lawful A) {o : FlushOutside A F}
    (hspared : Pairer.Spares o.sweep c.merger.pairer) :
    Measuring H i m₀ (rows ++ (c.doFlush o).reports) (c.doFlush o) := by
  obtain ⟨W, hp⟩ := h.paused
  obtain ⟨csv, buildRows, reports, hreporter⟩ := c.doFlush_reporter o
  have hreporterFlushed : Flushed H i.tables i.charged (c.merger.delivered.map Prod.snd)
      (fun key => Reporter.reportedOf key rows) c.reporter.pairer := h.flushed
  have hflushed := hreporterFlushed.flush hl { o.env with csvOpen := true } (c.flushInput o) hspared
  have hpairer : (c.doFlush o).merger.pairer =
      (c.reporter.doFlush { o.env with csvOpen := true } (c.flushInput o)).pairer := congrArg Reporter.pairer hreporter
  refine ⟨⟨W, hp.report _⟩, h.quiet, h.intact, ?_, h.settled.flush o⟩
  rw [hpairer]
  refine (funext fun key => ?_ : _ = fun key => Reporter.reportedOf key (rows ++ (c.doFlush o).reports)) ▸ hflushed
  rw [Reporter.reportedOf_append, c.reportedOf_doFlush o]

omit [Inhabited F] in
/-- Once every ring is read to its end. -/
theorem netMeasured (h : Measuring H i m₀ rows c) (hspread : Spread i.world m₀ spans stop)
    (hopen : ∀ ts, (keysAt spans ts).card ≤ max 1 i.tables.maxOpenSpans.toNat)
    (hstages : (spanStages spans).card ≤ max 1 i.tables.maxStages.toNat)
    (hreached : ∀ r, r < i.world.rings → c.merger.ringCursor r = stop r) :
    NetMeasured spans i.charged (fun key => Reporter.reportedOf key rows) c.merger.pairer := by
  obtain ⟨W, hp⟩ := h.paused
  exact h.flushed.measured (hp.spansInOrder hspread h.quiet hreached) hopen hstages

omit [Inhabited F] in
/-- The loop of the final drain. -/
theorem idle (h : Measuring H i m₀ rows c) (hsound : i.world.Sound) (hnone : ∀ t k, ¬i.world.Published t k)
    {m : Merger A} (hidle : c.merger.Idle m) : Measuring H i m₀ rows { c with merger := m } := by
  obtain ⟨W, hp⟩ := h.paused
  have hdelivered : m.delivered = c.merger.delivered := by
    rw [hidle.rest]
    rfl
  have hpairer : m.pairer = c.merger.pairer := by rw [hidle.rest]
  have hflushed : Flushed H i.tables i.charged (m.delivered.map Prod.snd)
      (fun key => Reporter.reportedOf key rows) m.pairer := by
    rw [hdelivered, hpairer]
    exact h.flushed
  refine ⟨⟨W, hp.idle hsound hnone hidle⟩, ?_, ?_, hflushed, h.settled.setMerger hflushed.balanced ?_⟩
  · rw [hidle.rest]
    exact h.quiet
  · rw [hidle.rest]
    exact h.intact
  · rw [hpairer]
    exact .refl _

omit [Inhabited F] in
/-- The counters of the handshake have no part in it. -/
theorem counters (h : Measuring H i m₀ rows c) (flushRequest flushDone : Nat) :
    Measuring H i m₀ rows { c with flushRequest := flushRequest, flushDone := flushDone } :=
  ⟨h.paused, h.quiet, h.intact, h.flushed, h.settled⟩

omit [Inhabited F] in
theorem stopped (h : Measuring H i m₀ rows c) : Measuring H i m₀ rows c.stop :=
  ⟨h.paused, h.quiet, h.intact, h.flushed, h.settled⟩

end Measuring

/-! ## Runs -/

/-- The session runs, and measures. -/
structure CollectorRun.InSession (H : HeapLib) (i : StartInput) (m₀ : Merger A) (rows : List (StageReport F))
    (r : CollectorRun Caller A F) : Prop where
  world : r.world = i.world
  threaded : r.collector.threaded = true
  measuring : Measuring H i m₀ rows r.collector

variable {r r' : CollectorRun Caller A F}

theorem CollectorRun.InSession.step (h : r.InSession H i m₀ rows) (hl : Accum.Lawful A) (hsound : i.world.Sound)
    (hrings : i.world.rings ≠ 0) (hspread : Spread i.world m₀ spans stop) {a : CollectorAction Caller A F}
    (hclean : r.Clean H Hm m₀ stop a) (hstep : r.step H Hm a = some r') :
    r'.InSession H i m₀ (rows ++ rowsPublished r' a) := by
  obtain ⟨hworld, hthreaded, hm⟩ := h
  cases a with
  | start i => exact hclean.elim
  | failedStart mode => exact hclean.elim
  | shutdown si => exact hclean.elim
  | drainOnce watermark =>
      rw [CollectorRun.step, if_pos hthreaded] at hstep
      cases hstep
      rw [CollectorRun.Clean, hworld] at hclean
      have hpass := (hm.pass hsound hrings hspread hclean).1
      rw [← hworld] at hpass
      exact ⟨hworld, hthreaded, (List.append_nil rows).symm ▸ hpass⟩
  | flush o =>
      rw [CollectorRun.step, if_pos hthreaded] at hstep
      cases hstep
      exact ⟨hworld, hthreaded, hm.flush hl hclean⟩
  | serve watermark o =>
      rw [CollectorRun.step] at hstep
      split at hstep
      · cases hstep
        obtain ⟨hpass, hspared⟩ := hclean
        rw [hworld] at hpass
        have hpassed := (hm.pass hsound hrings hspread hpass).1
        rw [← hworld] at hpassed
        exact ⟨hworld, hthreaded, (hpassed.flush hl hspared).counters _ _⟩
      · cases hstep
  | call caller =>
      rw [CollectorRun.step] at hstep
      have hnone : rows ++ rowsPublished r' (.call caller) = rows := List.append_nil rows
      rw [hnone]
      split at hstep
      · cases hstep
        rw [CollectorRun.call, if_pos hthreaded]
        exact ⟨hworld, hthreaded, hm.counters _ _⟩
      · cases hstep
  | answer caller q =>
      rw [CollectorRun.step] at hstep
      have hnone : rows ++ rowsPublished r' (.answer caller q) = rows := List.append_nil rows
      rw [hnone]
      split at hstep
      · cases hstep
      · cases hstep
        exact ⟨hworld, hthreaded, hm⟩
      · split at hstep
        · cases hstep
          exact ⟨hworld, hthreaded, hm⟩
        · cases hstep
  | stop =>
      rw [CollectorRun.step, if_pos hthreaded] at hstep
      cases hstep
      exact ⟨hworld, hthreaded, (List.append_nil rows).symm ▸ hm.stopped⟩
  | giveUp caller q =>
      rw [CollectorRun.step] at hstep
      have hnone : rows ++ rowsPublished r' (.giveUp caller q) = rows := List.append_nil rows
      rw [hnone]
      split at hstep
      · split at hstep
        · cases hstep
          exact ⟨hworld, hthreaded, hm⟩
        · cases hstep
      · cases hstep

/-- In every state of a clean run. -/
theorem CleanRun.inSession (hl : Accum.Lawful A) (c : Collector A F) (hmode : i.mode ≠ .sharedProducer)
    (hsound : i.world.Sound) (hrings : i.world.rings ≠ 0) (hspread : Spread i.world (c.start i).merger spans stop)
    (h : CleanRun H Hm (c.start i).merger stop (c.session i) rows r) : r.InSession H i (c.start i).merger rows := by
  induction h with
  | refl => exact ⟨rfl, (c.threaded_start).mpr hmode, .start c hsound hmode⟩
  | step a h hclean hstep ih => exact ih.step hl hsound hrings hspread hclean hstep

/-- What is told is told by the rows. -/
theorem SpansTold.rows_eq {o : FlushOutside A F} {loss stalled : Nat} {overhead : UInt64}
    (h : SpansTold o loss stalled spans overhead rows c) {c' : Collector A F} (hrows : c'.reports = c.reports) :
    SpansTold o loss stalled spans overhead rows c' := by
  obtain ⟨⟨hunique, hkeys, hsnapshot⟩, honce⟩ := h
  refine ⟨⟨by rw [hrows]; exact hunique, by rw [hrows]; exact hkeys, fun p f t => ?_⟩, by rw [hrows]; exact honce⟩
  have hsame : c'.snapshot p f t = c.snapshot p f t := by
    unfold Collector.snapshot
    rw [hrows]
  rw [hsame]
  exact hsnapshot p f t

omit [Inhabited F] in
/-- After a pass past every stamp the pairer has measured the spans. -/
theorem Measuring.netMeasured_pass (h : Measuring H i m₀ rows c) (hsound : i.world.Sound) (hrings : i.world.rings ≠ 0)
    (hspread : Spread i.world m₀ spans stop) (hopen : ∀ ts, (keysAt spans ts).card ≤ max 1 i.tables.maxOpenSpans.toNat)
    (hstages : (spanStages spans).card ≤ max 1 i.tables.maxStages.toNat) {watermark : UInt64}
    (hpass : SpanPass H i.world m₀ stop c.merger (watermark, Hm))
    (hlast : ∀ sp ∈ spans, ∀ s ∈ sp.stamps, s.timestamp < watermark) :
    Measuring H i m₀ rows { c with merger := c.merger.mergePass H i.world Hm watermark } ∧
      NetMeasured spans i.charged (fun key => Reporter.reportedOf key rows)
        (c.merger.mergePass H i.world Hm watermark).pairer := by
  obtain ⟨hm, hcomplete⟩ := h.pass hsound hrings hspread hpass
  obtain ⟨W, hp⟩ := hm.paused
  exact ⟨hm, hm.netMeasured hspread hopen hstages fun r hr => hpass.reaches hspread hp hcomplete hlast hr⟩

theorem Measuring.endRun (h : Measuring H i m₀ rows c) (hl : Accum.Lawful A) (hsound : i.world.Sound)
    (hrings : i.world.rings ≠ 0) (hspread : Spread i.world m₀ spans stop)
    (hopen : ∀ ts, (keysAt spans ts).card ≤ max 1 i.tables.maxOpenSpans.toNat)
    (hstages : (spanStages spans).card ≤ max 1 i.tables.maxStages.toNat) {si : ShutdownInput A F}
    (hclean : CleanEnd H Hm i.world m₀ stop c.merger si)
    (hlast : ∀ sp ∈ spans, ∀ s ∈ sp.stamps, s.timestamp < si.watermark) {c' : Collector A F}
    (hend : c.endRun H Hm i.world si = some c') :
    SpansTold si.flush si.flush.loss c'.merger.stalledSlots spans i.charged rows c' := by
  obtain ⟨m, hdrain, rfl⟩ := Option.map_eq_some_iff.mp hend
  have hun := hclean.unlapped m hdrain
  obtain ⟨m₁, hloop, rfl⟩ := Option.map_eq_some_iff.mp hdrain
  have hidle : c.merger.Idle { m₁ with stalledSince := none } :=
    ((Merger.Idle.later c.merger 2 c.merger.stalledSince).trans (finalDrainLoop_idle H hspread.shared _ _ _ hloop)).trans
      (.later m₁ 0 none)
  have hpass : SpanPass H i.world m₀ stop { m₁ with stalledSince := none } (si.watermark, Hm) :=
    { published := fun r hr j hj hlt hts =>
        (hclean.published r hr j hj hlt hts).trans_le (hsound.heads r _ _ hidle.time)
      unlapped := by
        rw [hidle.rest] at hun ⊢
        exact hun }
  obtain ⟨hm, hnet⟩ := (h.idle hsound hspread.shared hidle).netMeasured_pass hsound hrings hspread hopen hstages hpass
    hlast
  generalize ({ m₁ with stalledSince := none } : Merger A).mergePass H i.world Hm si.watermark = m₂ at hm hnet
  obtain ⟨L, hbal⟩ := hm.flushed.balanced
  have hsettled : Collector.Settled i.tables { c with merger := { m₂ with pairer := m₂.pairer.abandonAll.1 } } :=
    hm.settled.setMerger ⟨L, hbal.abandonAll⟩ (Pairer.grows_abandonAll m₂.pairer)
  have hnone := hnet.abandonAll
  have htold := hnone.told hl hsettled hm.intact (o := si.flush) (Pairer.spares_of_closed hnone.closed _)
  exact htold.rows_eq rfl

end Measurement

/-- From the rings to the snapshot: once a session has read the stamps of its complete spans, what the next flush
publishes, be it one that a caller asked for, a periodic one or that of the shutdown, tells the statistics of all their
samples, less the overhead; and the flushes up to then have reported each sample once. -/
theorem session_measures_spans {Caller A F : Type} [DecidableEq Caller] [Accum A] [Inhabited F] (hl : Accum.Lawful A)
    (H Hm : HeapLib) (c : Collector A F) (i : StartInput) (spans : List CompleteSpan) (stop : Nat → Nat)
    {rows : List (StageReport F)} {r r' : CollectorRun Caller A F} (hmode : i.mode ≠ .sharedProducer)
    (hsound : i.world.Sound) (hrings : i.world.rings ≠ 0) (hspread : Spread i.world (c.start i).merger spans stop)
    (hopen : ∀ ts, (keysAt spans ts).card ≤ max 1 i.tables.maxOpenSpans.toNat)
    (hstages : (spanStages spans).card ≤ max 1 i.tables.maxStages.toNat)
    (hrun : CleanRun H Hm (c.start i).merger stop (c.session i) rows r) :
    (∀ watermark o, SpanPass H i.world (c.start i).merger stop r.collector.merger (watermark, Hm) →
      (∀ sp ∈ spans, ∀ s ∈ sp.stamps, s.timestamp < watermark) →
      (collectorSystem Caller A F H Hm).step (.serve watermark o) r = some r' →
        SpansTold o o.loss r'.collector.merger.stalledSlots spans i.charged rows r'.collector) ∧
    (∀ o, (∀ k, k < i.world.rings → r.collector.merger.ringCursor k = stop k) →
      (collectorSystem Caller A F H Hm).step (.flush o) r = some r' →
        SpansTold o o.loss r'.collector.merger.stalledSlots spans i.charged rows r'.collector) ∧
    (∀ si, CleanEnd H Hm i.world (c.start i).merger stop r.collector.merger si →
      (∀ sp ∈ spans, ∀ s ∈ sp.stamps, s.timestamp < si.watermark) →
      (collectorSystem Caller A F H Hm).step (.shutdown si) r = some r' →
        SpansTold si.flush si.flush.loss r'.collector.merger.stalledSlots spans i.charged rows r'.collector) := by
  obtain ⟨hworld, hthreaded, hm⟩ := hrun.inSession hl c hmode hsound hrings hspread
  refine ⟨fun watermark o hpass hlast hstep => ?_, fun o hreached hstep => ?_, fun si hclean hlast hstep => ?_⟩
  · obtain ⟨hm', hnet⟩ := hm.netMeasured_pass hsound hrings hspread hopen hstages hpass hlast
    have htold := hnet.told hl hm'.settled hm'.intact (o := o) (Pairer.spares_of_closed hnet.closed _)
    rw [← hworld] at htold
    replace hstep : r.step H Hm (.serve watermark o) = some r' := hstep
    rw [CollectorRun.step] at hstep
    split at hstep
    · cases hstep
      exact htold.rows_eq rfl
    · cases hstep
  · have hnet := hm.netMeasured hspread hopen hstages hreached
    replace hstep : r.step H Hm (.flush o) = some r' := hstep
    rw [CollectorRun.step, if_pos hthreaded] at hstep
    cases hstep
    exact hnet.told hl hm.settled hm.intact (Pairer.spares_of_closed hnet.closed _)
  · obtain ⟨c', hc', rfl⟩ := Option.map_eq_some_iff.mp hstep
    rw [Collector.shutdown, if_pos hthreaded, hworld] at hc'
    obtain ⟨c'', hend, rfl⟩ := Option.map_eq_some_iff.mp hc'
    exact (hm.stopped.endRun hl hsound hrings hspread hopen hstages hclean hlast hend).rows_eq rfl

/-- The rings of the two spans, on which nothing lies when the session starts. -/
def lateSpans : World := { sharedSpans with head := fun t r => if t < 2 then 0 else sharedSpans.head t r }

def lateStart : StartInput := ⟨.localMode, ⟨2, 4⟩, true, lateSpans, 3, 0⟩

def plainFlush : FlushOutside (Accumulator 4) Unit := ⟨Reporter.plainEnv, 0, none, 0⟩

def startedLate : Collector (Accumulator 4) Unit := Collector.fresh.start lateStart

theorem lateSpans_spread : Spread lateSpans startedLate.merger sharedSpanList (sharedSpans.head 0) where
  shared _ _ h := Nat.lt_irrefl 0 h
  heads r hr t := by
    change (if t < 2 then 0 else sharedSpans.head t r) ≤ sharedSpans.head 0 r
    split
    · exact Nat.zero_le _
    · exact Nat.le_refl _
  contents := sharedSpans_spread.contents
  order
    | 0, _ => by decide
    | 1, _ => by decide
  increasing := sharedSpans_spread.increasing

theorem lateSpans_sound : lateSpans.Sound where
  heads r t t' htt' := by
    change (if t < 2 then 0 else sharedSpans.head t r) ≤ if t' < 2 then 0 else sharedSpans.head t' r
    split
    · exact Nat.zero_le _
    · rw [if_neg (by omega)]
      exact Nat.le_refl _
  handsOut _ _ _ h := absurd h (Nat.not_lt_zero _)
  stays _ _ _ _ h := h

theorem lateSpans_pass {m : Merger (Accumulator 4)} {pass : UInt64 × HeapLib}
    (h : 2 ≤ m.time ∧ Unlapped lateSpans m (m.mergePass sortingLib lateSpans pass.2 pass.1)) :
    SpanPass sortingLib lateSpans startedLate.merger (sharedSpans.head 0) m pass where
  published r _ i _ hlt _ := by
    change i < if m.time < 2 then 0 else sharedSpans.head m.time r
    rw [if_neg (Nat.not_lt.mpr h.1)]
    exact hlt
  unlapped := h.2

abbrev LateRun : List (StageReport Unit) → CollectorRun Unit (Accumulator 4) Unit → Prop :=
  CleanRun sortingLib sortingLib startedLate.merger (sharedSpans.head 0) (Collector.fresh.session lateStart)

/-- A call, a pass in the middle of the first span, a flush, and one for the caller. -/
def lateCall : CollectorRun Unit (Accumulator 4) Unit :=
  ((Collector.fresh.session lateStart).step sortingLib sortingLib (.call ())).get (by decide +kernel)

def latePass : CollectorRun Unit (Accumulator 4) Unit :=
  (lateCall.step sortingLib sortingLib (.drainOnce 25)).get (by decide +kernel)

def lateFlush : CollectorRun Unit (Accumulator 4) Unit :=
  (latePass.step sortingLib sortingLib (.flush plainFlush)).get (by decide +kernel)

def lateServe : CollectorRun Unit (Accumulator 4) Unit :=
  (lateFlush.step sortingLib sortingLib (.serve 60 plainFlush)).get (by decide +kernel)

theorem session_measures_spans_lateSpans :
    SpansTold plainFlush 0 0 sharedSpanList 3 lateFlush.collector.reports lateServe.collector ∧
      lateFlush.collector.reports.length = 1 ∧ netSamples 3 sharedSpanList 1 0 0 = {14, 7} := by
  have hcall : LateRun [] lateCall := .step (.call ()) .refl trivial (Option.some_get _).symm
  have hpass : LateRun [] latePass :=
    .step (.drainOnce 25) hcall (lateSpans_pass (by decide +kernel)) (Option.some_get _).symm
  have hflush : LateRun lateFlush.collector.reports lateFlush :=
    .step (.flush plainFlush) hpass (fun x hx => by cases hx) (Option.some_get _).symm
  have hserve : (collectorSystem Unit (Accumulator 4) Unit sortingLib sortingLib).step (.serve 60 plainFlush) lateFlush =
      some lateServe := (Option.some_get _).symm
  have htold := (session_measures_spans (Accumulator.lawful 4) sortingLib sortingLib Collector.fresh lateStart
    sharedSpanList (sharedSpans.head 0) (by decide) lateSpans_sound (by decide) lateSpans_spread sharedSpans_keysAt
    (by decide) hflush).1 60 plainFlush (lateSpans_pass (by decide +kernel)) (by decide) hserve
  exact ⟨htold, by decide +kernel, by decide⟩

end SlickPerfmon
