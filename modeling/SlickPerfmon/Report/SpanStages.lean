import SlickPerfmon.Pairing.SpanCharges
import SlickPerfmon.Report.Samples

/-!
# Complete spans across flushes

Neither the stamp overhead nor a flush has a say in how stamps are paired: a pairer that is flushed pairs as one that
never is, as long as the flushes' sweeps find no span too old. What it records for a run of complete spans in order is
what they are charged, in the lifetime record up to the last flush and in the interval since.
-/

namespace SlickPerfmon

open Library

namespace Pairer

/-! ## What neither overhead nor flushes change -/

section Shadow

variable {A : Type}

/-- A pairer with other stages and another overhead. -/
def restage (Q : Pairer A) (stages : OpenMap (Stage A)) (overhead : UInt64) : Pairer A :=
  { Q with stages := stages, overheadCycles := overhead }

/-- `P` differs from `Q` in its overhead and in what its stages hold, and has the same stages. -/
structure Shadow (Q P : Pairer A) : Prop where
  rest : P = Q.restage P.stages P.overheadCycles
  size : P.stages.size = Q.stages.size
  maxEntries : P.stages.maxEntries = Q.stages.maxEntries
  held : ∀ k, (P.stages.find k).isSome = (Q.stages.find k).isSome

/-! ### What does not touch the stages -/

variable (Q : Pairer A) (stages : OpenMap (Stage A)) (overhead : UInt64)

theorem restage_anomalies (p : UInt32) (inc : PointAnomalies → PointAnomalies) :
    (Q.restage stages overhead).anomalies p inc = (Q.anomalies p inc).restage stages overhead := by
  have hpoints : (Q.restage stages overhead).points = Q.points := rfl
  unfold anomalies
  rw [hpoints]
  cases Q.points.find p.toUInt64 with
  | some a => rfl
  | none =>
      cases Q.points.insert p.toUInt64 {} with
      | mk points inserted =>
          cases inserted with
          | some i => rfl
          | none => rfl

theorem restage_tryCandidates (queue : List EvictCandidate) :
    (Q.restage stages overhead).tryCandidates queue =
      ((Q.tryCandidates queue).1.restage stages overhead, (Q.tryCandidates queue).2) := by
  induction queue generalizing Q with
  | nil => rfl
  | cons c queue ih =>
      have hnext := ih { Q with evictNext := Q.evictNext + 1 }
      have hspans : (Q.restage stages overhead).spans = Q.spans := rfl
      simp only [tryCandidates, hspans]
      cases hf : Q.spans.find c.key with
      | none => exact hnext
      | some sp =>
          by_cases hseen : sp.seenTsc = c.seenTsc
          · have hcount := restage_anomalies { Q with evictNext := Q.evictNext + 1 } stages overhead (spanPoint c.key)
              .incAbandoned
            simp only [if_pos hseen]
            exact congrArg (fun R : Pairer A => (({ R with spans := (R.spans.erase c.key).1 } : Pairer A), true)) hcount
          · simp only [if_neg hseen]
            exact hnext

variable (H : HeapLib)

theorem restage_evictPass :
    (Q.restage stages overhead).evictPass H =
      ((Q.evictPass H).1.restage stages overhead, (Q.evictPass H).2) := by
  have hqueue : (Q.restage stages overhead).evictQueue = Q.evictQueue ∧
    (Q.restage stages overhead).evictNext = Q.evictNext := ⟨rfl, rfl⟩
  unfold evictPass
  rw [hqueue.1, hqueue.2, restage_tryCandidates]
  cases Q.tryCandidates (Q.evictQueue.drop Q.evictNext) with
  | mk R evicted =>
      cases evicted with
      | true => rfl
      | false => rfl

theorem restage_evictOldest :
    (Q.restage stages overhead).evictOldest H = (Q.evictOldest H).restage stages overhead := by
  unfold evictOldest
  rw [restage_evictPass]
  cases Q.evictPass H with
  | mk R done =>
      cases done with
      | true => rfl
      | false => exact congrArg Prod.fst (restage_evictPass R stages overhead H)

theorem restage_openBegin (key : UInt64) (s : Sample) :
    (Q.restage stages overhead).openBegin H key s = (Q.openBegin H key s).restage stages overhead := by
  have hspans : (Q.restage stages overhead).spans = Q.spans := rfl
  unfold openBegin
  rw [hspans, restage_anomalies, restage_evictOldest]
  cases Q.spans.find key with
  | some sp => rfl
  | none =>
      simp only
      cases Q.spans.insert key ⟨s.timestamp, s.timestamp, s.timestamp, 0, kBeginStep⟩ with
      | mk spans inserted =>
          cases inserted with
          | some i => rfl
          | none => rfl

end Shadow

/-! ### Events -/

section Events

variable {A : Type} [Accum A] {Q P : Pairer A}

/-- What `record` does to the stage table, whatever it stores. -/
inductive RecordsStage (P : Pairer A) (p : UInt32) (key : UInt64) (P' : Pairer A) : Prop
  | found (hold : (P.stages.find key).isSome = true) (rest : P' = { P with stages := P'.stages })
      (size : P'.stages.size = P.stages.size) (maxEntries : P'.stages.maxEntries = P.stages.maxEntries)
      (held : ∀ k, (P'.stages.find k).isSome = (P.stages.find k).isSome)
  | fresh (hnone : (P.stages.find key).isSome = false) (hroom : P.stages.size < P.stages.maxEntries)
      (rest : P' = { P with stages := P'.stages }) (size : P'.stages.size = P.stages.size + 1)
      (maxEntries : P'.stages.maxEntries = P.stages.maxEntries)
      (held : ∀ k, (P'.stages.find k).isSome = (decide (k = key) || (P.stages.find k).isSome))
  | full (hnone : (P.stages.find key).isSome = false) (hfull : ¬ P.stages.size < P.stages.maxEntries)
      (rest : P' = P.anomalies p .incOutOfRange)

theorem record_stage (h : P.stages.WF) (p : UInt32) (f t : UInt8) (v : UInt64) (n : UInt32) :
    RecordsStage P p (stageKey p f t) (P.record p f t v n) := by
  cases hf : P.stages.find (stageKey p f t) with
  | some g =>
      have hm := OpenMap.modify_present h (fun g => g.addSample (P.netCycles v n)) hf
      have hr : P.record p f t v n =
          { P with stages := P.stages.modify (stageKey p f t) fun g => g.addSample (P.netCycles v n) } := by
        simp only [record, hf]
      rw [hr]
      refine .found (by rw [hf]; rfl) rfl hm.size hm.maxEntries fun k => ?_
      rw [hm.find]
      split
      · rename_i hk
        rw [hk, hf]
        rfl
      · rfl
  | none =>
      by_cases hroom : P.stages.size < P.stages.maxEntries
      · obtain ⟨hv, hins⟩ := OpenMap.insert_new (w := (Stage.fresh p f t : Stage A)) h hf hroom
        have hr : P.record p f t v n =
            { P with
              stages := (P.stages.insert (stageKey p f t) (Stage.fresh p f t)).1.modify (stageKey p f t)
                fun g => g.addSample (P.netCycles v n) } := by
          cases hi : P.stages.insert (stageKey p f t) (Stage.fresh p f t : Stage A) with
          | mk m o => rw [hi] at hv; cases hv; simp only [record, hf, hi]
        have hm := OpenMap.modify_present hins.wf (fun g => g.addSample (P.netCycles v n))
          (by rw [hins.find, if_pos rfl] : _ = some (Stage.fresh p f t))
        rw [hr]
        refine .fresh (by rw [hf]; rfl) hroom rfl (hm.size.trans hins.size) (hm.maxEntries.trans hins.maxEntries)
          fun k => ?_
        rw [hm.find, hins.find]
        by_cases hk : k = stageKey p f t
        · simp [hk]
        · simp [hk]
      · have hfull : P.stages.size = P.stages.maxEntries := by have := h.size_le; omega
        refine .full (by rw [hf]; rfl) hroom ?_
        simp only [record, hf, OpenMap.insert_full h hf hfull]

omit [Accum A] in
theorem RecordsStage.keeps {P' : Pairer A} {p : UInt32} {key : UInt64} (h : RecordsStage P p key P') {k : UInt64}
    (hk : (P.stages.find k).isSome = true) : (P'.stages.find k).isSome = true := by
  cases h with
  | found hold rest size maxEntries held => rw [held, hk]
  | fresh hnone hroom rest size maxEntries held => rw [held, hk, Bool.or_true]
  | full hnone hfull rest => rw [rest, anomalies_stages, hk]

theorem recordAll_keeps (hP : P.WF) (hk : P.StagesKeyed) (p : UInt32) (ms : List Measurement) {k : UInt64}
    (hheld : (P.stages.find k).isSome = true) : ((P.recordAll p ms).stages.find k).isSome = true := by
  induction ms generalizing P with
  | nil => exact hheld
  | cons m ms ih =>
      have hrec := record_spec hP hk p m.fromStep m.toStep m.cycles m.transitions
      have hstage := (record_stage hP.stages p m.fromStep m.toStep m.cycles m.transitions).keeps hheld
      exact ih (wf_record hP hk p m.fromStep m.toStep m.cycles m.transitions) hrec.keyed hstage

/-- A stage stays. -/
theorem onEvent_keeps (H : HeapLib) {cfg : Config} {L : Ledger} (hb : Balanced cfg P L) (s : Sample) {k : UInt64}
    (hheld : (P.stages.find k).isSome = true) : ((P.onEvent H s).stages.find k).isSome = true := by
  rw [onEvent_recordAll H hb s]
  exact recordAll_keeps hb.wf hb.keyed s.point (P.measures s) hheld

namespace Shadow

omit [Accum A] in
theorem spans (h : Shadow Q P) : P.spans = Q.spans := by
  rw [h.rest]
  rfl

omit [Accum A] in
theorem anomalies (h : Shadow Q P) (p : UInt32) (inc : PointAnomalies → PointAnomalies) :
    Shadow (Q.anomalies p inc) (P.anomalies p inc) := by
  have hsame : P.anomalies p inc = (Q.anomalies p inc).restage P.stages P.overheadCycles := by
    rw [← restage_anomalies, ← h.rest]
  refine ⟨by rw [hsame]; rfl, ?_, ?_, fun k => ?_⟩
  · rw [anomalies_stages, anomalies_stages]
    exact h.size
  · rw [anomalies_stages, anomalies_stages]
    exact h.maxEntries
  · rw [anomalies_stages, anomalies_stages]
    exact h.held k

omit [Accum A] in
theorem setSpans (h : Shadow Q P) (spans : OpenMap OpenSpan) :
    Shadow { Q with spans := spans } { P with spans := spans } where
  rest := congrArg (fun R : Pairer A => { R with spans := spans }) h.rest
  size := h.size
  maxEntries := h.maxEntries
  held := h.held

omit [Accum A] in
theorem rest_of_stages (h : Shadow Q P) {Q' P' : Pairer A} (hQ : Q' = { Q with stages := Q'.stages })
    (hP : P' = { P with stages := P'.stages }) : P' = Q'.restage P'.stages P'.overheadCycles := by
  have hoverhead : P'.overheadCycles = P.overheadCycles := by rw [hP]
  calc
    P' = { P with stages := P'.stages } := hP
    _ = { Q.restage P.stages P.overheadCycles with stages := P'.stages } := by rw [← h.rest]
    _ = ({ Q with stages := Q'.stages } : Pairer A).restage P'.stages P'.overheadCycles := by rw [hoverhead]; rfl
    _ = Q'.restage P'.stages P'.overheadCycles := by rw [← hQ]

theorem record (h : Shadow Q P) (hQ : Q.stages.WF) (hP : P.stages.WF) (p : UInt32) (f t : UInt8) (v : UInt64)
    (n : UInt32) : Shadow (Q.record p f t v n) (P.record p f t v n) := by
  cases record_stage hQ p f t v n with
  | found hold rest size maxEntries held =>
      cases record_stage hP p f t v n with
      | found hold' rest' size' maxEntries' held' =>
          exact ⟨h.rest_of_stages rest rest', by rw [size', size, h.size], by rw [maxEntries', maxEntries, h.maxEntries],
            fun k => by rw [held', held, h.held]⟩
      | fresh hnone => rw [h.held, hold] at hnone; cases hnone
      | full hnone => rw [h.held, hold] at hnone; cases hnone
  | fresh hnone hroom rest size maxEntries held =>
      cases record_stage hP p f t v n with
      | found hold' => rw [h.held, hnone] at hold'; cases hold'
      | fresh hnone' hroom' rest' size' maxEntries' held' =>
          exact ⟨h.rest_of_stages rest rest', by rw [size', size, h.size], by rw [maxEntries', maxEntries, h.maxEntries],
            fun k => by rw [held', held, h.held]⟩
      | full hnone' hfull' => rw [h.size, h.maxEntries] at hfull'; exact absurd hroom hfull'
  | full hnone hfull rest =>
      cases record_stage hP p f t v n with
      | found hold' => rw [h.held, hnone] at hold'; cases hold'
      | fresh hnone' hroom' => rw [h.size, h.maxEntries] at hroom'; exact absurd hroom' hfull
      | full hnone' hfull' rest' =>
          rw [rest, rest']
          exact h.anomalies p _

variable (H : HeapLib) {cfg : Config} {L L' : Ledger}

/-- Both take an event the same way. -/
theorem onEvent (h : Shadow Q P) (hQ : Balanced cfg Q L) (hP : Balanced cfg P L') (s : Sample) :
    Shadow (Q.onEvent H s) (P.onEvent H s) := by
  have hspans := h.spans
  cases hs : s.isStamp with
  | false =>
      rw [onEvent_value H hs, onEvent_value H hs]
      exact h.record hQ.wf.stages hP.wf.stages ..
  | true =>
      by_cases hb : s.step = kBeginStep
      · have hsame : P.openBegin H s.key s = (Q.openBegin H s.key s).restage P.stages P.overheadCycles := by
          rw [← restage_openBegin, ← h.rest]
        have hstages : (Q.openBegin H s.key s).stages = Q.stages := by
          have hown : Q.openBegin H s.key s = (Q.openBegin H s.key s).restage Q.stages Q.overheadCycles :=
            restage_openBegin Q Q.stages Q.overheadCycles H s.key s
          rw [hown]
          rfl
        rw [onEvent_begin H hb, onEvent_begin H hb, hsame]
        exact ⟨rfl, by rw [hstages]; exact h.size, by rw [hstages]; exact h.maxEntries,
          fun k => by rw [hstages]; exact h.held k⟩
      · cases hf : Q.spans.find s.key with
        | none =>
            rw [onEvent_orphan H hs hb hf, onEvent_orphan H hs hb (by rw [hspans]; exact hf)]
            exact h.anomalies s.point _
        | some sp =>
            have hf' : P.spans.find s.key = some sp := by rw [hspans]; exact hf
            by_cases hlt : s.timestamp < sp.lastTsc
            · rw [onEvent_backwards H hs hb hf hlt, onEvent_backwards H hs hb hf' hlt, hspans]
              exact (h.anomalies s.point _).setSpans _
            · by_cases he : s.step = kEndStep
              · rw [onEvent_end H he hf hlt, onEvent_end H he hf' hlt, hspans]
                by_cases hl : sp.lastStep = kBeginStep
                · simp only [hl, ne_eq, not_true, if_false]
                  exact (h.record hQ.wf.stages hP.wf.stages ..).setSpans _
                · simp only [ne_eq, hl, not_false_eq_true, if_true]
                  have hfirst := h.record hQ.wf.stages hP.wf.stages s.point sp.lastStep kEndStep
                    (s.timestamp - sp.lastTsc) 1
                  exact (hfirst.record (wf_record hQ.wf hQ.keyed ..).stages (wf_record hP.wf hP.keyed ..).stages
                    ..).setSpans _
              · rw [onEvent_step H hs hb he hf hlt, onEvent_step H hs hb he hf' hlt, hspans]
                exact (h.record hQ.wf.stages hP.wf.stages ..).setSpans _

omit [Accum A] in
/-- Rewriting what the stages hold. -/
theorem forEach (h : Shadow Q P) (hP : P.stages.WF) (f : Stage A → Stage A) :
    Shadow Q { P with stages := P.stages.forEach fun _ => f } where
  rest := congrArg (fun R : Pairer A => { R with stages := P.stages.forEach fun _ => f }) h.rest
  size := h.size
  maxEntries := h.maxEntries
  held k := by
    rw [(OpenMap.forEach_spec hP fun _ => f).find, Option.isSome_map]
    exact h.held k

omit [Accum A] in
theorem measures (h : Shadow Q P) (s : Sample) : P.measures s = Q.measures s := by
  have hspans := h.spans
  have haccepts : P.accepts s = Q.accepts s := by rw [accepts, accepts, hspans]
  rw [Pairer.measures, Pairer.measures, haccepts]

end Shadow

end Events

/-! ### Sweeps -/

section Sweeps

variable {A : Type} {P : Pairer A}

/-- No open span is too old for the sweep of a flush, if it makes one. -/
def Spares (sweep : Option (UInt64 × UInt64)) (P : Pairer A) : Prop :=
  ∀ x, sweep = some x → ∀ e ∈ P.spans.entries, expired x.1 x.2 e.2 = false

theorem spares_of_closed (h : P.spans.entries = []) (sweep : Option (UInt64 × UInt64)) : Spares sweep P := by
  intro x _ e he
  rw [h] at he
  cases he

theorem eraseIfLoop_spares {V σ : Type} {pred : σ → UInt64 → V → Bool × σ} {m : OpenMap V} {s : σ}
    (hspared : ∀ e ∈ m.entries, pred s e.1 e.2 = (false, s)) (removed : Nat) {fuel i : Nat} (hfuel : m.cap - i < fuel) :
    OpenMap.eraseIfLoop pred fuel i m s removed = some (m, s, removed) := by
  induction fuel generalizing i with
  | zero => omega
  | succ fuel ih =>
      rw [OpenMap.eraseIfLoop]
      by_cases hi : m.cap ≤ i
      · rw [if_pos hi]
      · rw [if_neg hi]
        cases hs : m.slots i with
        | none => exact ih (by omega)
        | some e =>
            have hmem : e ∈ m.entries := mem_contents.mpr ⟨i, by omega, hs⟩
            simp only [hspared e hmem]
            exact ih (by omega)

theorem sweep_spares {nowTsc maxAgeCycles : UInt64}
    (h : ∀ e ∈ P.spans.entries, expired nowTsc maxAgeCycles e.2 = false) :
    P.sweep nowTsc maxAgeCycles = (P, 0) := by
  unfold sweep
  split
  · rfl
  · rename_i hage
    have hpred : ∀ e ∈ P.spans.entries, sweepPred nowTsc maxAgeCycles P e.1 e.2 = (false, P) := by
      intro e he
      have hold := h e he
      unfold expired at hold
      unfold sweepPred
      rw [if_neg]
      simpa [hage] using hold
    rw [OpenMap.eraseIf, eraseIfLoop_spares hpred 0 (by omega)]
    rfl

end Sweeps

end Pairer

/-! ## A pairer that is flushed -/

section Flushed

variable {A F : Type} [Accum A] (H : HeapLib)

/-- A pairer that was given `done` and flushed meanwhile: it pairs as one that was never flushed, and each stage holds
its samples, `reported` of them in the rows of the flushes. -/
structure Flushed (cfg : Config) (overhead : UInt64) (done : List Sample) (reported : UInt64 → Nat) (P : Pairer A) :
    Prop where
  balanced : ∃ L, Balanced cfg P L
  charged : P.overheadCycles = overhead
  shadow : Pairer.Shadow (done.foldl (fun Q s => Q.onEvent H s) (Pairer.reset cfg)) P
  fed : ∀ key, ∃ before since, Pairer.StageFed key before since (reported key) P ∧
    before ++ since = runSamples H key overhead (Pairer.reset cfg : Pairer A) done
  silent : ∀ key, (P.stages.find key).isSome = false → reported key = 0

variable {H} {cfg : Config} {overhead : UInt64} {done : List Sample} {reported : UInt64 → Nat} {P : Pairer A}

theorem balanced_foldl (cfg : Config) (ss : List Sample) :
    ∃ L, Balanced cfg (ss.foldl (fun Q s => Q.onEvent H s) (Pairer.reset cfg : Pairer A)) L := by
  induction ss using List.reverseRecOn with
  | nil => exact ⟨{}, balanced_reset cfg⟩
  | append_singleton ss s ih =>
      obtain ⟨L, h⟩ := ih
      rw [List.foldl_append]
      exact ⟨_, (h.event H s).1⟩

namespace Flushed

theorem start (cfg : Config) (overhead : UInt64) :
    Flushed H cfg overhead [] (fun _ => 0) ((Pairer.reset cfg : Pairer A).setOverhead overhead) where
  balanced := ⟨{}, (balanced_reset cfg).setOverhead overhead⟩
  charged := rfl
  shadow := ⟨rfl, rfl, rfl, fun _ => rfl⟩
  fed key := by
    refine ⟨[], [], ⟨fun g hg => ?_, fun _ => Or.inl ⟨rfl, rfl, rfl⟩⟩, rfl⟩
    exact absurd (hg.symm.trans (OpenMap.find_reset _ key)) (by simp)
  silent _ _ := rfl

theorem event (h : Flushed H cfg overhead done reported P) (s : Sample) :
    Flushed H cfg overhead (done ++ [s]) reported (P.onEvent H s) := by
  obtain ⟨L, hb⟩ := h.balanced
  obtain ⟨L', hb'⟩ := balanced_foldl (H := H) (A := A) cfg done
  refine ⟨⟨_, (hb.event H s).1⟩, ?_, ?_, fun key => ?_, fun key hnone => h.silent key ?_⟩
  · exact (Pairer.call_overheadCycles H hb.wf (.event s)).trans h.charged
  · rw [List.foldl_append]
    exact h.shadow.onEvent H hb' hb s
  · obtain ⟨before, since, hfed, hlog⟩ := h.fed key
    refine ⟨before, _, hfed.event H hb s, ?_⟩
    rw [runSamples_append, ← hlog, List.append_assoc, Pairer.eventSamples, h.charged, h.shadow.measures]
  · rw [Bool.eq_false_iff] at hnone ⊢
    exact fun hheld => hnone (Pairer.onEvent_keeps H hb s hheld)

theorem events (h : Flushed H cfg overhead done reported P) (ss : List Sample) :
    Flushed H cfg overhead (done ++ ss) reported (ss.foldl (fun P s => P.onEvent H s) P) := by
  induction ss generalizing done P with
  | nil => rw [List.append_nil]; exact h
  | cons s ss ih =>
      have hnext := ih (h.event s)
      rw [List.append_assoc, List.singleton_append] at hnext
      exact hnext

open Reporter

/-- The rows of a flush report what was recorded since the last one. -/
theorem reportedOf_doFlush (hl : Accum.Lawful A) (env : ReportEnv A F) {st : Reporter A F} {L : Ledger}
    (hb : Balanced cfg st.pairer L) (f : FlushInput) (key : UInt64) :
    reportedOf key (st.doFlush env f).reports =
      ((st.pairer.stages.find key).map fun g => Accum.count g.interval).getD 0 := by
  obtain ⟨hsb, hst⟩ := balanced_swept st hb f
  rw [reportedOf_perm (doFlush_reports env st f), reportedOf_built env _ _ _ hl hsb.wf.stages hsb.keyed, hst]

/-- A flush whose sweep finds nothing too old. -/
theorem flush (hl : Accum.Lawful A) (env : ReportEnv A F) {st : Reporter A F}
    (h : Flushed H cfg overhead done reported st.pairer) (f : FlushInput) (hspared : Pairer.Spares f.sweep st.pairer) :
    Flushed H cfg overhead done (fun key => reported key + reportedOf key (st.doFlush env f).reports)
      (st.doFlush env f).pairer := by
  obtain ⟨L, hb⟩ := h.balanced
  have hswept : (st.swept f).pairer = st.pairer := by
    unfold Reporter.swept
    cases hs : f.sweep with
    | none => rfl
    | some x => simp only [Pairer.sweep_spares (hspared x hs)]
  refine ⟨⟨L, balanced_flush env st hb f⟩, ?_, ?_, fun key => ?_, fun key hnone => ?_⟩
  · rw [doFlush_pairer, hswept]
    exact h.charged
  · rw [doFlush_pairer, hswept]
    have hmerged := h.shadow.forEach hb.wf.stages merged
    exact hmerged.forEach (OpenMap.forEach_spec hb.wf.stages fun _ => merged).wf Stage.clearInterval
  · obtain ⟨before, since, hfed, hlog⟩ := h.fed key
    exact ⟨before ++ since, [], stageFed_flush env st hl hb hfed f, by rw [List.append_nil]; exact hlog⟩
  · have hmerge := OpenMap.forEach_spec hb.wf.stages fun _ => merged
    have hclear := OpenMap.forEach_spec hmerge.wf fun _ (g : Stage A) => g.clearInterval
    have hfind : ((st.doFlush env f).pairer.stages.find key).isSome = (st.pairer.stages.find key).isSome := by
      rw [doFlush_pairer, hswept]
      refine (congrArg Option.isSome (hclear.find key)).trans ?_
      rw [hmerge.find, Option.isSome_map, Option.isSome_map]
    rw [hfind] at hnone
    have hfindNone := Option.isNone_iff_eq_none.mp (Option.isSome_eq_false_iff.mp hnone)
    rw [h.silent key hnone, reportedOf_doFlush hl env hb f, hfindNone]
    rfl

end Flushed

/-! ## Complete spans -/

/-- Every stage holds what the spans are charged for it, `reported` of it in its lifetime record; nothing else was
recorded, no span is open and nothing counted. -/
structure NetMeasured (spans : List CompleteSpan) (overhead : UInt64) (reported : UInt64 → Nat) (P : Pairer A) :
    Prop where
  absent : ∀ p f t, P.stages.find (stageKey p f t) = none → netSamples overhead spans p f t = 0 ∧
    reported (stageKey p f t) = 0
  present : ∀ p f t g, P.stages.find (stageKey p f t) = some g → netSamples overhead spans p f t ≠ 0 ∧
    ∃ before since : List UInt64, g.cumulative = Accum.feed before ∧ g.interval = Accum.feed since ∧
      (before ++ since : List UInt64) = netSamples overhead spans p f t ∧
      reported (stageKey p f t) = before.length
  keyed : P.StagesKeyed
  closed : P.spans.entries = []
  counters : ∀ p, P.anomaliesOf p = {}
  overflow : P.overflow = {}

namespace NetMeasured

variable {spans : List CompleteSpan}

/-- What was reported and what the next flush will report are the samples of the spans. -/
theorem total (hl : Accum.Lawful A) (h : NetMeasured spans overhead reported P) (p : UInt32) (f t : UInt8) :
    reported (stageKey p f t) + ((P.stages.find (stageKey p f t)).map fun g => Accum.count g.interval).getD 0 =
      (netSamples overhead spans p f t).card := by
  cases hfind : P.stages.find (stageKey p f t) with
  | none =>
      obtain ⟨hnone, hreported⟩ := h.absent p f t hfind
      rw [hnone, hreported]
      rfl
  | some g =>
      obtain ⟨-, before, since, -, hinterval, hlog, hreported⟩ := h.present p f t g hfind
      rw [← hlog, hreported, Option.map_some, Option.getD_some, hinterval, hl.count_feed, Multiset.coe_card,
        List.length_append]

/-- There is nothing left to abandon. -/
theorem abandonAll (h : NetMeasured spans overhead reported P) : NetMeasured spans overhead reported P.abandonAll.1 := by
  have habandon : P.abandonAll.1 = { P with spans := P.spans.clear, evictQueue := [], evictNext := 0 } := by
    unfold Pairer.abandonAll
    rw [h.closed]
    rfl
  rw [habandon]
  exact ⟨h.absent, h.present, h.keyed, OpenMap.entries_clear _, h.counters, h.overflow⟩

end NetMeasured

theorem card_netSamples (overhead : UInt64) (spans : List CompleteSpan) (p : UInt32) (f t : UInt8) :
    (netSamples overhead spans p f t).card = (spanSamples spans p f t).card := by
  have hone : ∀ sp : CompleteSpan, (sp.charges.filter fun m => m.fromStep = f ∧ m.toStep = t).length =
      (sp.measured.filter fun r => r.fromStep = f ∧ r.toStep = t).length := by
    intro sp
    rw [CompleteSpan.charges, CompleteSpan.measured, CompleteSpan.total, List.filter_append, List.filter_append,
      List.length_append, List.length_append, List.filter_map, List.length_map]
    congr 1
    by_cases hs : kBeginStep = f ∧ kBeginStep = t
    · obtain ⟨rfl, rfl⟩ := hs
      simp
    · simp [hs]
  simp only [netSamples, spanSamples, Multiset.coe_card, List.length_map]
  generalize spans.filter (fun sp => sp.point = p) = l
  induction l with
  | nil => rfl
  | cons sp l ih =>
      rw [List.flatMap_cons, List.flatMap_cons, List.filter_append, List.filter_append, List.length_append,
        List.length_append, hone, ih]

/-- A run of complete spans in order, flushed wherever: nothing is lost and nothing counted twice. -/
theorem Flushed.measured {spans : List CompleteSpan} (h : Flushed H cfg overhead done reported P)
    (hin : SpansInOrder spans done) (hopen : ∀ ts, (keysAt spans ts).card ≤ max 1 cfg.maxOpenSpans.toNat)
    (hstages : (spanStages spans).card ≤ max 1 cfg.maxStages.toNat) : NetMeasured spans overhead reported P := by
  obtain ⟨L, hb⟩ := h.balanced
  have hplain := hin.measured (A := A) H hopen hstages
  have hrest := h.shadow.rest
  have hcard : ∀ p f t, netSamples overhead spans p f t = 0 ↔ spanSamples spans p f t = 0 := fun p f t => by
    rw [← Multiset.card_eq_zero, card_netSamples, Multiset.card_eq_zero]
  refine
    { absent := fun p f t hnone => ?_
      present := fun p f t g hg => ?_
      keyed := hb.keyed
      closed := by rw [hrest]; exact hplain.closed
      counters := fun p => by rw [hrest]; exact hplain.counters p
      overflow := by rw [hrest]; exact hplain.overflow }
  · have hheld := h.shadow.held (stageKey p f t)
    rw [hnone, Option.isSome_none] at hheld
    have hholds := hplain.stages p f t
    have hnone' := Option.isNone_iff_eq_none.mp (Option.isSome_eq_false_iff.mp hheld.symm)
    rw [hnone'] at hholds
    exact ⟨(hcard p f t).mpr hholds, h.silent _ (by rw [hnone]; rfl)⟩
  · have hheld := h.shadow.held (stageKey p f t)
    rw [hg, Option.isSome_some] at hheld
    obtain ⟨g', hg'⟩ := Option.isSome_iff_exists.mp hheld.symm
    have hholds := hplain.stages p f t
    rw [hg'] at hholds
    obtain ⟨before, since, hfed, hlog⟩ := h.fed (stageKey p f t)
    obtain ⟨hc, hi, hn⟩ := hfed.present g hg
    refine ⟨fun h0 => hholds.1 ((hcard p f t).mp h0), before, since, hc, hi, ?_, hn⟩
    rw [hlog]
    exact hin.runSamples_eq (A := A) H hopen hstages overhead p f t

end Flushed

end SlickPerfmon
