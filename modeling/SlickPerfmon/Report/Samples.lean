import SlickPerfmon.Pairing.StageSamples
import SlickPerfmon.Report.ColumnSum

/-!
# Every sample once

Over a session of events and flushes, a stage's lifetime record is one accumulator fed every sample recorded for it,
and the interval counts of its rows add up to the samples.
-/

namespace SlickPerfmon

open Library

variable {A F : Type}

/-- Among distinct keys, one entry has the key. -/
theorem sum_of_key {V : Type} {es : List (UInt64 × V)} (hnodup : (es.map Prod.fst).Nodup) {key : UInt64} {v : V}
    (hmem : (key, v) ∈ es) (f : V → Nat) : (es.map fun e => if e.1 = key then f e.2 else 0).sum = f v := by
  induction es with
  | nil => cases hmem
  | cons e es ih =>
      obtain ⟨hnew, hnodup⟩ := List.nodup_cons.mp hnodup
      rw [List.map_cons, List.sum_cons]
      rcases List.mem_cons.mp hmem with rfl | hmem
      · have hzero : (es.map fun e => if e.1 = key then f e.2 else 0).sum = 0 := by
          rw [List.sum_eq_zero_iff]
          intro x hx
          obtain ⟨e, he, rfl⟩ := List.mem_map.mp hx
          exact if_neg fun heq => hnew (List.mem_map.mpr ⟨e, he, heq⟩)
        rw [if_pos rfl, hzero, Nat.add_zero]
      · have hne : e.1 ≠ key := by
          rintro rfl
          exact hnew (List.mem_map.mpr ⟨_, hmem, rfl⟩)
        rw [if_neg hne, Nat.zero_add, ih hnodup hmem]

namespace Reporter

/-! ## The rows of one stage -/

/-- What the rows of a stage say of the interval, summed. -/
def reportedOf (key : UInt64) (rows : List (StageReport F)) : Nat :=
  (rows.map fun r => if stageKey r.point r.fromStep r.toStep = key then r.interval.count else 0).sum

theorem reportedOf_append (key : UInt64) (rows rows' : List (StageReport F)) :
    reportedOf key (rows ++ rows') = reportedOf key rows + reportedOf key rows' := by
  simp [reportedOf]

theorem reportedOf_perm {key : UInt64} {rows rows' : List (StageReport F)} (h : rows.Perm rows') :
    reportedOf key rows = reportedOf key rows' := (h.map _).sum_eq

/-- Exempting a row from the filter of the file changes no count. -/
theorem reportedOf_exempt (key : UInt64) (rows : List (StageReport F)) (i : Nat) :
    reportedOf key (rows.modify i fun r => { r with anomaliesOnly := true }) = reportedOf key rows := by
  induction rows generalizing i with
  | nil => cases i <;> rfl
  | cons r rows ih =>
      cases i with
      | zero => rfl
      | succ i =>
          simp only [reportedOf, List.modify_succ_cons, List.map_cons, List.sum_cons] at ih ⊢
          rw [ih]

variable [Accum A] (env : ReportEnv A F) (st : Reporter A F) (newLosses newStalled : Nat)

/-- The vector of a pass holds rows that report `n` samples of the stage. -/
def Reports (key : UInt64) (n : Nat) (b : Build F) : Prop :=
  b.n ≤ b.out.length ∧ reportedOf key b.rows = n

theorem Reports.putRow {key : UInt64} {n : Nat} {b : Build F} (h : Reports key n b) (r : StageReport F) :
    Reports key (n + reportedOf key [r]) (b.putRow r) := by
  obtain ⟨hrows, hfits⟩ := Build.rows_putRow h.1 r
  exact ⟨hfits, by rw [hrows, reportedOf_append, h.2]⟩

/-- An anomaly row has no samples. -/
theorem reportedOf_anomalyRow (hl : Accum.Lawful A) (key : UInt64) (p : UInt32) (name : String) (overflow : Bool)
    (delta total : PointAnomalies) :
    reportedOf key [st.anomalyRow env newLosses newStalled p name overflow delta total] = 0 := by
  have h0 : Accum.count (Accum.empty : A) = 0 := hl.count_feed []
  simp [reportedOf, anomalyRow, ReportEnv.toStats, h0]

theorem Reports.stages {key : UInt64} {n : Nat} {b : Build F} (h : Reports key n b) (es : List (UInt64 × Stage A)) :
    Reports key (n + reportedOf key (es.map fun e => st.stageRow env newLosses newStalled e.2))
      (es.foldl (st.stageStep env newLosses newStalled) b) := by
  induction es generalizing n b with
  | nil => exact h
  | cons e es ih =>
      have hput := h.putRow (st.stageRow env newLosses newStalled e.2)
      have hnext := ih (b := st.stageStep env newLosses newStalled b e) hput
      rw [Nat.add_assoc, ← reportedOf_append] at hnext
      exact hnext

theorem Reports.points (hl : Accum.Lawful A) {key : UInt64} {n : Nat} {b : Build F} (h : Reports key n b)
    (es : List (UInt64 × PointAnomalies)) :
    Reports key n (es.foldl (st.pointStep env newLosses newStalled) b) := by
  induction es generalizing b with
  | nil => exact h
  | cons e es ih =>
      refine ih ?_
      have hrow : ∀ b' : Build F, Reports key n b' → ∀ p name overflow delta total,
          Reports key n (b'.putRow (st.anomalyRow env newLosses newStalled p name overflow delta total)) := by
        intro b' hb' p name overflow delta total
        have hput := hb'.putRow (st.anomalyRow env newLosses newStalled p name overflow delta total)
        rw [reportedOf_anomalyRow env st newLosses newStalled hl, Nat.add_zero] at hput
        exact hput
      have hbase : ∀ b' : Build F, b'.out = b.out → b'.n = b.n → Reports key n b' := by
        intro b' hout hn
        refine ⟨by rw [hout, hn]; exact h.1, ?_⟩
        rw [Build.rows, hout, hn]
        exact h.2
      have hexempt : ∀ (b' : Build F) (i : Nat), Reports key n b' →
          Reports key n { b' with out := b'.out.modify i fun r => { r with anomaliesOnly := true } } := by
        intro b' i hb'
        refine ⟨by simpa using hb'.1, ?_⟩
        rw [Build.rows, List.take_modify, reportedOf_exempt]
        exact hb'.2
      unfold pointStep
      simp only
      split
      · split
        · refine hrow _ (hbase _ ?_ ?_) _ _ _ _ _
          · split <;> rfl
          · split <;> rfl
        · split
          · refine hbase _ ?_ ?_
            · split <;> rfl
            · split <;> rfl
          · refine hexempt _ _ (hbase _ ?_ ?_)
            · split <;> rfl
            · split <;> rfl
      · exact h

/-- The rows of a flush report, for each stage, the samples of its interval. -/
theorem reportedOf_built (hl : Accum.Lawful A) (hw : st.pairer.stages.WF) (hk : st.pairer.StagesKeyed)
    (key : UInt64) (out : List (StageReport F)) :
    reportedOf key (st.built env newLosses newStalled out).rows =
      ((st.pairer.stages.find key).map fun g => Accum.count g.interval).getD 0 := by
  have hstart : Reports key 0 (⟨out, 0, st.rowPoints.clear, st.pointBaseline⟩ : Build F) := ⟨Nat.zero_le _, rfl⟩
  have hpoints := (hstart.stages env st newLosses newStalled st.pairer.stages.entries).points env st newLosses
    newStalled hl st.pairer.points.entries
  have hover : reportedOf key (st.built env newLosses newStalled out).rows =
      reportedOf key (st.pairer.stages.entries.map fun e => st.stageRow env newLosses newStalled e.2) := by
    rw [Nat.zero_add] at hpoints
    unfold built
    simp only [overflowStep]
    split
    · have hput := hpoints.putRow (st.anomalyRow env newLosses newStalled 0 "overflow" true
        (st.pairer.overflow.since st.overflowBaseline) st.pairer.overflow)
      rw [reportedOf_anomalyRow env st newLosses newStalled hl, Nat.add_zero] at hput
      exact hput.2
    · exact hpoints.2
  have hentry : ∀ e ∈ st.pairer.stages.entries, stageKey e.2.point e.2.fromStep e.2.toStep = e.1 := by
    intro e he
    exact (hk e.1 e.2 ((OpenMap.find_eq_some hw).mpr he)).symm
  have hsum : reportedOf key (st.pairer.stages.entries.map fun e => st.stageRow env newLosses newStalled e.2) =
      (st.pairer.stages.entries.map fun e => if e.1 = key then Accum.count e.2.interval else 0).sum := by
    rw [reportedOf, List.map_map]
    congr 1
    refine List.map_congr_left fun e he => ?_
    rw [← hentry e he]
    rfl
  rw [hover, hsum]
  have hnodup := OpenMap.entries_keys_nodup hw
  cases hf : st.pairer.stages.find key with
  | none =>
      rw [Option.map_none, Option.getD_none, List.sum_eq_zero_iff]
      intro x hx
      obtain ⟨e, he, rfl⟩ := List.mem_map.mp hx
      rw [if_neg]
      rintro rfl
      exact (OpenMap.find_eq_none hw).mp hf e.2 he
  | some g =>
      have hmem := (OpenMap.find_eq_some hw).mp hf
      rw [Option.map_some, Option.getD_some]
      exact sum_of_key hnodup hmem fun g => Accum.count g.interval

/-! ## One flush -/

omit [Accum A] in
theorem balanced_swept {cfg : Config} {L : Ledger} (h : Balanced cfg st.pairer L) (f : FlushInput) :
    Balanced cfg (st.swept f).pairer L ∧ (st.swept f).pairer.stages = st.pairer.stages := by
  unfold Reporter.swept
  cases hs : f.sweep with
  | none => exact ⟨h, rfl⟩
  | some x =>
      obtain ⟨removed, hsw⟩ := Pairer.sweep_spec h.wf x.1 x.2
      exact ⟨h.sweep x.1 x.2, hsw.stages⟩

theorem balanced_flush {cfg : Config} {L : Ledger} (h : Balanced cfg st.pairer L) (f : FlushInput) :
    Balanced cfg (st.doFlush env f).pairer L := by
  rw [doFlush_pairer]
  have hmerged : Balanced cfg { (st.swept f).pairer with stages := (st.swept f).pairer.stages.forEach fun _ => merged } L :=
    (balanced_swept st h f).1.rewriteStages fun _ => ⟨rfl, rfl, rfl⟩
  exact hmerged.clearIntervals

/-- A flush moves what was recorded since the last one to the lifetime record, and reports it. -/
theorem stageFed_flush (hl : Accum.Lawful A) {cfg : Config} {L : Ledger} (hb : Balanced cfg st.pairer L)
    {key : UInt64} {before since : List UInt64} {reported : Nat}
    (h : Pairer.StageFed key before since reported st.pairer) (f : FlushInput) :
    Pairer.StageFed key (before ++ since) [] (reported + reportedOf key (st.doFlush env f).reports)
      (st.doFlush env f).pairer := by
  obtain ⟨hsb, hst⟩ := balanced_swept st hb f
  have hrep : reportedOf key (st.doFlush env f).reports =
      ((st.pairer.stages.find key).map fun g => Accum.count g.interval).getD 0 := by
    rw [reportedOf_perm (doFlush_reports env st f), reportedOf_built env _ _ _ hl hsb.wf.stages hsb.keyed, hst]
  have hmerge := OpenMap.forEach_spec hsb.wf.stages fun _ => merged
  have hclear := OpenMap.forEach_spec hmerge.wf fun _ (g : Stage A) => g.clearInterval
  have hfind : (st.doFlush env f).pairer.stages.find key =
      (st.pairer.stages.find key).map fun g => (merged g).clearInterval := by
    rw [doFlush_pairer, ← hst]
    refine (hclear.find key).trans ?_
    rw [hmerge.find, Option.map_map]
    rfl
  have hsize : (st.doFlush env f).pairer.stages.size = st.pairer.stages.size ∧
      (st.doFlush env f).pairer.stages.maxEntries = st.pairer.stages.maxEntries := by
    rw [doFlush_pairer, ← hst]
    exact ⟨hclear.size.trans hmerge.size, hclear.maxEntries.trans hmerge.maxEntries⟩
  rw [hrep]
  refine ⟨fun g hg => ?_, fun hnone => ?_⟩
  · rw [hfind] at hg
    obtain ⟨g₀, hg₀, rfl⟩ := Option.map_eq_some_iff.mp hg
    obtain ⟨hc, hi, hn⟩ := h.present g₀ hg₀
    refine ⟨?_, ?_, ?_⟩
    · simp only [Stage.clearInterval, merged, hc, hi]
      exact hl.merge_feed before since
    · simp only [Stage.clearInterval, merged, hi]
      exact hl.clear_feed since
    · rw [hg₀, Option.map_some, Option.getD_some, hi, hl.count_feed, hn, List.length_append]
  · have hnone₀ : st.pairer.stages.find key = none := by
      rw [hfind] at hnone
      exact Option.map_eq_none_iff.mp hnone
    rw [hnone₀, hsize.1, hsize.2]
    rcases h.absent hnone₀ with ⟨rfl, rfl, rfl⟩ | hfull
    · exact Or.inl ⟨rfl, rfl, rfl⟩
    · exact Or.inr hfull

/-! ## A session -/

variable (H : HeapLib)

/-- The samples that the events of a session bring to the stage of a key, in order. -/
def samples (key : UInt64) : Reporter A F → List SessionStep → List UInt64
  | _, [] => []
  | st, s :: rest =>
      (match s with
        | .event e => st.pairer.eventSamples key e
        | _ => []) ++ samples key (st.step H env s) rest

/-- The interval counts that the flushes of a session report of the stage of a key, summed. -/
def reportedIn (key : UInt64) : Reporter A F → List SessionStep → Nat
  | _, [] => 0
  | st, s :: rest =>
      (match s with
        | .flush f => reportedOf key (st.doFlush env f).reports
        | _ => 0) + reportedIn key (st.step H env s) rest

theorem samples_append (key : UInt64) (steps rest : List SessionStep) :
    samples env H key st (steps ++ rest) =
      samples env H key st steps ++ samples env H key (st.run H env steps) rest := by
  induction steps generalizing st with
  | nil => rfl
  | cons s steps ih =>
      simp only [List.cons_append, samples, ih, List.append_assoc]
      rfl

theorem reportedIn_append (key : UInt64) (steps rest : List SessionStep) :
    reportedIn env H key st (steps ++ rest) =
      reportedIn env H key st steps + reportedIn env H key (st.run H env steps) rest := by
  induction steps generalizing st with
  | nil => exact (Nat.zero_add _).symm
  | cons s steps ih =>
      simp only [List.cons_append, reportedIn, ih, Nat.add_assoc]
      rfl

theorem stageFed_run (hl : Accum.Lawful A) {cfg : Config} {key : UInt64} (steps : List SessionStep) {L : Ledger}
    (hb : Balanced cfg st.pairer L) {before since : List UInt64} {reported : Nat}
    (h : Pairer.StageFed key before since reported st.pairer) :
    ∃ L' before' since', Balanced cfg (st.run H env steps).pairer L' ∧
      before' ++ since' = before ++ since ++ samples env H key st steps ∧
      Pairer.StageFed key before' since' (reported + reportedIn env H key st steps)
        (st.run H env steps).pairer := by
  induction steps generalizing st L before since reported with
  | nil => exact ⟨L, before, since, hb, (List.append_nil _).symm, h⟩
  | cons s steps ih =>
      cases s with
      | event e =>
          obtain ⟨L', b', s', hb', hlog, h'⟩ := ih (st.step H env (.event e)) (hb.event H e).1 (h.event H hb e)
          refine ⟨L', b', s', hb', ?_, ?_⟩
          · simp only [hlog, samples, List.append_assoc]
          · simp only [reportedIn, Nat.zero_add]
            exact h'
      | flush f =>
          obtain ⟨L', b', s', hb', hlog, h'⟩ :=
            ih (st.step H env (.flush f)) (balanced_flush env st hb f) (stageFed_flush env st hl hb h f)
          refine ⟨L', b', s', hb', ?_, ?_⟩
          · simp only [hlog, samples, List.append_nil, List.nil_append]
          · simp only [reportedIn, ← Nat.add_assoc]
            exact h'
      | abandonAll =>
          have hstages : st.pairer.abandonAll.1.stages = st.pairer.stages := Pairer.abandonAll_stages st.pairer
          obtain ⟨L', b', s', hb', hlog, h'⟩ :=
            ih (st.step H env .abandonAll) hb.abandonAll (h.congr hstages)
          refine ⟨L', b', s', hb', ?_, ?_⟩
          · simp only [hlog, samples, List.nil_append]
          · simp only [reportedIn, Nat.zero_add]
            exact h'

/-- After any flush of a session, the lifetime record of a stage is one accumulator fed every sample recorded for it
since the session began, in order, wherever the flushes cut them: the same in every field, the textbook sums among
them. Its interval is empty, and the counts its rows reported add up to the lifetime count. -/
theorem every_sample_counted_once {kPrecision : UInt32} (env : ReportEnv (Accumulator kPrecision) F) (cfg : Config)
    (overheadCycles : UInt64) (reports : List (StageReport F)) (steps : List SessionStep) (f : FlushInput)
    (p : UInt32) (fromStep toStep : UInt8) :
    let st : Reporter (Accumulator kPrecision) F := reset cfg overheadCycles reports
    let all := steps ++ [.flush f]
    let key := stageKey p fromStep toStep
    let vs := samples env H key st all
    let xs : List Rat := vs.map fun v => (v.toNat : Rat)
    ∀ g, (st.run H env all).pairer.stages.find key = some g →
      g.cumulative = Accum.feed vs ∧ g.interval = .empty ∧
      g.cumulative.count = vs.length ∧ g.cumulative.sum = xs.sum ∧
      g.cumulative.mean = g.cumulative.sum / g.cumulative.count ∧
      g.cumulative.m2 = (xs.map fun x => (x - g.cumulative.mean) ^ 2).sum ∧
      reportedIn env H key st all = g.cumulative.count := by
  intro st all key vs xs g hg
  have hbal : Balanced cfg st.pairer {} := (balanced_reset cfg).setOverhead overheadCycles
  have hnone : st.pairer.stages.find key = none := OpenMap.find_reset _ _
  have hfed : Pairer.StageFed key [] [] 0 st.pairer :=
    { present := fun g hg => by rw [hnone] at hg; cases hg
      absent := fun _ => Or.inl ⟨rfl, rfl, rfl⟩ }
  obtain ⟨L, before, since, hb, hlog, h⟩ := stageFed_run env st H (Accumulator.lawful kPrecision) steps hbal hfed
  have hflush := stageFed_flush env (st.run H env steps) (Accumulator.lawful kPrecision) hb h f
  have hlast : st.run H env all = (st.run H env steps).doFlush env f := by
    simp only [run, all, List.foldl_append]
    rfl
  have hvs : before ++ since = vs := by
    rw [hlog]
    simp only [vs, all, samples_append, samples, List.nil_append, List.append_nil]
  have hrep : reportedIn env H key st all =
      0 + reportedIn env H key st steps + reportedOf key ((st.run H env steps).doFlush env f).reports := by
    simp only [all, reportedIn_append, reportedIn, Nat.zero_add, Nat.add_zero]
  rw [hlast] at hg
  obtain ⟨hc, hi, hn⟩ := hflush.present g hg
  rw [hvs] at hc hn
  obtain ⟨hcount, hsum, hmean, hm2⟩ := Accumulator.textbook kPrecision vs
  refine ⟨hc, hi, ?_⟩
  rw [hc]
  exact ⟨hcount, hsum, hmean, hm2, by rw [hrep, hn, hcount]⟩

/-- A value, a flush, two more values, a flush without samples, and one more value. -/
def valuesAcrossFlushes : List SessionStep :=
  [.event ⟨5, 1, makeEvent kValueStep 0⟩, .flush ⟨none, 0, 0⟩, .event ⟨7, 1, makeEvent kValueStep 0⟩,
    .event ⟨12, 1, makeEvent kValueStep 0⟩, .flush ⟨none, 0, 0⟩, .flush ⟨none, 0, 0⟩,
    .event ⟨8, 1, makeEvent kValueStep 0⟩]

theorem every_sample_counted_once_valuesAcrossFlushes :
    let st : Reporter (Accumulator 4) Unit := reset ⟨2, 4⟩ 0 []
    let all := valuesAcrossFlushes ++ [.flush ⟨none, 0, 0⟩]
    let key := stageKey 1 kValueStep kValueStep
    samples plainEnv sortingLib key st all = [5, 7, 12, 8] ∧
    ∃ g, (st.run sortingLib plainEnv all).pairer.stages.find key = some g ∧
      g.cumulative = Accum.feed (samples plainEnv sortingLib key st all) ∧
      reportedIn plainEnv sortingLib key st all = g.cumulative.count := by
  intro st all key
  refine ⟨by decide, ?_⟩
  obtain ⟨g, hg⟩ := Option.isSome_iff_exists.mp
    (by decide : ((st.run sortingLib plainEnv all).pairer.stages.find key).isSome = true)
  obtain ⟨hc, -, -, -, -, -, hrep⟩ := every_sample_counted_once sortingLib plainEnv ⟨2, 4⟩ 0 []
    valuesAcrossFlushes ⟨none, 0, 0⟩ 1 kValueStep kValueStep g hg
  exact ⟨g, hg, hc, hrep⟩

end Reporter

end SlickPerfmon
