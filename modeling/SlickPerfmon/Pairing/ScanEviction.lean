import SlickPerfmon.Pairing.EvictOrder
import Mathlib.Data.List.MinMax

/-!
# Batched eviction is oldest-first eviction

While the stamps come in the order of their timestamps, whatever the queue holds, every eviction takes an oldest span.
With no two stamps at one time there is only one such span, and the pairer does what one that scans its whole table does.
-/

namespace SlickPerfmon

open Library

/-! ## A pairer that scans -/

namespace Pairer

variable {A : Type}

/-- The whole table is scanned for the oldest span. -/
def evictByScan (P : Pairer A) : Pairer A :=
  match P.spans.entries.argmin fun e => e.2.seenTsc.toNat with
  | some e => P.dropSpan e.1
  | none => P

/-- `open_begin` with a scan for each eviction. -/
def openBeginByScan (P : Pairer A) (key : UInt64) (s : Sample) : Pairer A :=
  let fresh : OpenSpan := ⟨s.timestamp, s.timestamp, s.timestamp, 0, kBeginStep⟩
  match P.spans.find key with
  | some _ =>
      let P := P.anomalies s.point .incAbandoned
      { P with spans := P.spans.modify key fun _ => fresh }
  | none =>
      let P :=
        match P.spans.insert key fresh with
        | (spans, some _) => { P with spans := spans }
        | (_, none) =>
            let P := P.evictByScan
            { P with spans := (P.spans.insert key fresh).1 }
      { P with peakOpen := if P.spans.size > P.peakOpen then P.spans.size else P.peakOpen }

variable [Accum A] (H : HeapLib)

/-- `on_event` with a scan for each eviction; nothing but a begin evicts. -/
def onEventByScan (P : Pairer A) (s : Sample) : Pairer A :=
  if s.step = kBeginStep then P.openBeginByScan s.key s else P.onEvent H s

def callByScan (P : Pairer A) : Call → Pairer A
  | .event s => P.onEventByScan H s
  | c => P.call H c

/-- A run of calls, each eviction from the queue. -/
def callAll (P : Pairer A) (calls : List Call) : Pairer A := calls.foldl (Pairer.call H) P

/-- The same run with a scan for each eviction. -/
def callAllByScan (P : Pairer A) (calls : List Call) : Pairer A := calls.foldl (callByScan H) P

end Pairer

/-- The timestamps of the stamps among the calls. -/
def stampTimes (calls : List Call) : List UInt64 :=
  calls.filterMap fun
    | .event s => if s.isStamp = true then some s.timestamp else none
    | _ => none

/-! ## What an event does to the spans and the queue -/

namespace Pairer

section Touch

variable {A : Type}

@[simp] theorem anomalies_waiting (P : Pairer A) (p : UInt32) (inc : PointAnomalies → PointAnomalies) :
    (P.anomalies p inc).waiting = P.waiting := by
  rw [waiting, anomalies_evictQueue, anomalies_evictNext]
  rfl

@[simp] theorem record_waiting [Accum A] (P : Pairer A) (p : UInt32) (f t : UInt8) (v : UInt64) (n : UInt32) :
    (P.record p f t v n).waiting = P.waiting := by
  rw [waiting, record_evictQueue, record_evictNext]
  rfl

/-- An event that evicts nothing leaves its own span touched now, or touches none and may remove some. -/
inductive Touched (P : Pairer A) (s : Sample) (P' : Pairer A) : Prop
  | fewer (find : ∀ k sp, P'.spans.find k = some sp → P.spans.find k = some sp) (queue : P'.waiting = P.waiting)
  | touched (sp : OpenSpan) (seen : sp.seenTsc = s.timestamp)
      (find : ∀ k, P'.spans.find k = if k = s.key then some sp else P.spans.find k) (queue : P'.waiting = P.waiting)

variable (H : HeapLib) {P : Pairer A} {s : Sample}

/-- A begin that finds its key closed and the table full. -/
structure ForcesEviction (P : Pairer A) (s : Sample) : Prop where
  step : s.step = kBeginStep
  closed : P.spans.find s.key = none
  full : P.spans.size = P.spans.maxEntries

/-- The span of `k` is evicted for the begin `s`. -/
structure EvictedFor (P : Pairer A) (s : Sample) (k : UInt64) (P' : Pairer A) : Prop where
  find : ∀ k', P'.spans.find k' = if k' = s.key then some (freshSpan s) else if k' = k then none else P.spans.find k'
  counted : CountedOnce P P' (spanPoint k) .incAbandoned

theorem openBegin_oldest (h : P.WF) (hord : Ordered P.spans P.waiting) (hf : ForcesEviction P s) :
    ∃ k sp, EvictedOldest P k sp (P.evictOldest H) ∧
      (∀ k', (P.openBegin H s.key s).spans.find k' =
        if k' = s.key then some (freshSpan s) else (P.evictOldest H).spans.find k') ∧
      (P.openBegin H s.key s).waiting = (P.evictOldest H).waiting ∧ EvictedFor P s k (P.openBegin H s.key s) := by
  obtain ⟨k, sp, hev⟩ := evictOldest_oldest H h (entries_ne_nil_of_full h hf.full) hord
  obtain ⟨queue, next, hstate⟩ := hev.state
  obtain ⟨-, hrem⟩ := OpenMap.erase_present h.spans hev.oldest.1
  have hspans : (P.evictOldest H).spans = (P.spans.erase k).1 := by rw [hstate]; rfl
  rw [← hspans] at hrem
  have hclosed : (P.evictOldest H).spans.find s.key = none := by
    rw [hrem.find]
    split
    · rfl
    · exact hf.closed
  obtain ⟨-, hins⟩ := OpenMap.insert_new (w := freshSpan s) hrem.wf hclosed (by
    have := hrem.size
    have := hrem.maxEntries
    have := hf.full
    omega)
  obtain ⟨peak, hopen⟩ := openBegin_evicts H h hf.closed hf.full
  have hpoints : (P.evictOldest H).points = (P.anomalies (spanPoint k) .incAbandoned).points := by rw [hstate]; rfl
  have hover : (P.evictOldest H).overflow = (P.anomalies (spanPoint k) .incAbandoned).overflow := by rw [hstate]; rfl
  rw [hopen]
  refine ⟨k, sp, hev, hins.find, rfl, fun k' => ?_, countedOnce_anomalies h.points hpoints hover⟩
  rw [hins.find, hrem.find]

variable [Accum A]

theorem onEvent_touched (h : P.WF) (hs : s.isStamp = true) (hforced : ¬ ForcesEviction P s) :
    Touched P s (P.onEvent H s) := by
  by_cases hb : s.step = kBeginStep
  · rw [onEvent_begin H hb]
    cases hf : P.spans.find s.key with
    | some sp =>
        rw [openBegin_open H hf]
        exact .touched (freshSpan s) rfl (OpenMap.modify_present h.spans (fun _ => freshSpan s) hf).find
          (anomalies_waiting ..)
    | none =>
        rcases Nat.lt_or_eq_of_le h.spans.size_le with hroom | hfull
        · obtain ⟨spans, peak, hins, heq⟩ := openBegin_room H h.spans hf hroom
          rw [heq]
          exact .touched (freshSpan s) rfl hins.find rfl
        · exact absurd ⟨hb, hf, hfull⟩ hforced
  · cases hf : P.spans.find s.key with
    | none =>
        rw [onEvent_orphan H hs hb hf]
        exact .fewer (fun k sp hk => by rwa [anomalies_spans] at hk) (anomalies_waiting ..)
    | some sp =>
        obtain ⟨-, hrem⟩ := OpenMap.erase_present h.spans hf
        have hfewer : ∀ k sp', (P.spans.erase s.key).1.find k = some sp' → P.spans.find k = some sp' := by
          intro k sp' hk
          rw [hrem.find] at hk
          split at hk
          · cases hk
          · exact hk
        by_cases hlt : s.timestamp < sp.lastTsc
        · rw [onEvent_backwards H hs hb hf hlt]
          exact .fewer hfewer (anomalies_waiting ..)
        · by_cases he : s.step = kEndStep
          · rw [onEvent_end H he hf hlt]
            refine .fewer hfewer ((record_waiting ..).trans ?_)
            split
            · exact record_waiting ..
            · rfl
          · rw [onEvent_step H hs hb he hf hlt]
            exact .touched _ rfl (OpenMap.modify_present h.spans _ hf).find (record_waiting ..)

end Touch

/-! ## Every eviction takes an oldest span -/

section Aged

variable {A : Type} (H : HeapLib)

/-- The queue is good, and what is open or queued was touched at one of the times so far. -/
structure Aged (P : Pairer A) (times : List UInt64) : Prop where
  ordered : Ordered P.spans P.waiting
  spans : ∀ k sp, P.spans.find k = some sp → sp.seenTsc ∈ times
  queue : ∀ c ∈ P.waiting, c.seenTsc ∈ times

theorem aged_reset (cfg : Config) (cycles : UInt64) : Aged ((reset cfg : Pairer A).setOverhead cycles) [] where
  ordered := Ordered.nil _
  spans k sp hk := by
    rw [show ((reset cfg : Pairer A).setOverhead cycles).spans.find k = none from OpenMap.find_reset _ _] at hk
    cases hk
  queue c hc := by cases hc

/-- Spans that go away keep the ages. -/
theorem Aged.mono {P P' : Pairer A} {times : List UInt64} (h : Aged P times)
    (hfind : ∀ k sp, P'.spans.find k = some sp → P.spans.find k = some sp)
    (hqueue : P'.waiting = P.waiting ∨ P'.waiting = []) : Aged P' times where
  ordered := by
    rcases hqueue with hq | hq
    · rw [hq]
      exact h.ordered.mono hfind
    · rw [hq]
      exact Ordered.nil _
  spans k sp hk := h.spans k sp (hfind k sp hk)
  queue c hc := by
    rcases hqueue with hq | hq
    · rw [hq] at hc
      exact h.queue c hc
    · rw [hq] at hc
      cases hc

theorem Aged.append {P : Pairer A} {times : List UInt64} (h : Aged P times) (t : UInt64) : Aged P (times ++ [t]) where
  ordered := h.ordered
  spans k sp hk := List.mem_append_left _ (h.spans k sp hk)
  queue c hc := List.mem_append_left _ (h.queue c hc)

/-- A span touched now is the youngest. -/
theorem Aged.touch {P P' : Pairer A} {times : List UInt64} (h : Aged P times) {key : UInt64} {w : OpenSpan}
    (hnew : ∀ t ∈ times, t ≤ w.seenTsc)
    (hfind : ∀ k, P'.spans.find k = if k = key then some w else P.spans.find k) (hqueue : P'.waiting = P.waiting) :
    Aged P' (times ++ [w.seenTsc]) where
  ordered := by
    rw [hqueue]
    exact h.ordered.touch (fun c hc => hnew _ (h.queue c hc)) hfind
  spans k sp hk := by
    rw [hfind] at hk
    split at hk
    · cases hk
      exact List.mem_append_right _ (List.mem_singleton_self _)
    · exact List.mem_append_left _ (h.spans k sp hk)
  queue c hc := by
    rw [hqueue] at hc
    exact List.mem_append_left _ (h.queue c hc)

theorem EvictedOldest.find {P P' : Pairer A} (h : P.spans.WF) {k : UInt64} {sp : OpenSpan}
    (hev : EvictedOldest P k sp P') (k' : UInt64) : P'.spans.find k' = if k' = k then none else P.spans.find k' := by
  obtain ⟨queue, next, hstate⟩ := hev.state
  obtain ⟨-, hrem⟩ := OpenMap.erase_present h hev.oldest.1
  rw [hstate]
  exact hrem.find k'

theorem Aged.evict {P P' : Pairer A} {times : List UInt64} (h : Aged P times) (hw : P.spans.WF) {k : UInt64}
    {sp : OpenSpan} (hev : EvictedOldest P k sp P') : Aged P' times where
  ordered := hev.ordered
  spans k' sp' hk := by
    rw [hev.find hw] at hk
    split at hk
    · cases hk
    · exact h.spans k' sp' hk
  queue c hc := by
    rcases hev.queued c hc with hmem | ⟨sp', hf, hs⟩
    · exact h.queue c hmem
    · rw [← hs]
      exact h.spans _ _ hf

theorem Aged.touched {P P' : Pairer A} {times : List UInt64} (h : Aged P times) {s : Sample}
    (hle : ∀ t ∈ times, t ≤ s.timestamp) (ht : Touched P s P') : Aged P' (times ++ [s.timestamp]) := by
  cases ht with
  | fewer find queue => exact (h.mono find (Or.inl queue)).append _
  | touched sp seen find queue =>
      rw [← seen] at hle ⊢
      exact h.touch hle find queue

theorem Aged.stamp [Accum A] {P : Pairer A} {times : List UInt64} (h : Aged P times) (hP : P.WF) {s : Sample}
    (hs : s.isStamp = true) (hle : ∀ t ∈ times, t ≤ s.timestamp) :
    Aged (P.onEvent H s) (times ++ [s.timestamp]) := by
  by_cases hf : ForcesEviction P s
  · obtain ⟨k, sp, hev, hfind, hqueue, -⟩ := openBegin_oldest H hP h.ordered hf
    rw [onEvent_begin H hf.step]
    exact (h.evict hP.spans hev).touch (w := freshSpan s) hle hfind hqueue
  · exact h.touched hle (onEvent_touched H hP hs hf)

/-- No two open spans were last touched at one time. -/
def Distinct (P : Pairer A) : Prop :=
  ∀ k k' sp sp', P.spans.find k = some sp → P.spans.find k' = some sp' → sp.seenTsc = sp'.seenTsc → k = k'

theorem Distinct.mono {P P' : Pairer A} (h : Distinct P)
    (hfind : ∀ k sp, P'.spans.find k = some sp → P.spans.find k = some sp) : Distinct P' :=
  fun k k' sp sp' hk hk' => h k k' sp sp' (hfind k sp hk) (hfind k' sp' hk')

theorem Distinct.touch {P P' : Pairer A} (h : Distinct P) {key : UInt64} {w : OpenSpan}
    (hnew : ∀ k sp, P.spans.find k = some sp → sp.seenTsc ≠ w.seenTsc)
    (hfind : ∀ k, P'.spans.find k = if k = key then some w else P.spans.find k) : Distinct P' := by
  intro k k' sp sp' hk hk' he
  rw [hfind] at hk hk'
  split at hk
  · rename_i hkey
    cases hk
    split at hk'
    · rename_i hkey'
      rw [hkey, hkey']
    · exact absurd he.symm (hnew k' sp' hk')
  · split at hk'
    · cases hk'
      exact absurd he (hnew k sp hk)
    · exact h k k' sp sp' hk hk' he

theorem Distinct.stamp [Accum A] {P : Pairer A} {times : List UInt64} (h : Distinct P) (hage : Aged P times)
    (hP : P.WF) {s : Sample} (hs : s.isStamp = true) (hlt : ∀ t ∈ times, t < s.timestamp) :
    Distinct (P.onEvent H s) := by
  have hne : ∀ k sp, P.spans.find k = some sp → sp.seenTsc ≠ s.timestamp := fun k sp hk he => by
    have := hlt _ (hage.spans k sp hk)
    rw [he] at this
    exact UInt64.lt_irrefl _ this
  by_cases hf : ForcesEviction P s
  · obtain ⟨k, sp, hev, hfind, -, -⟩ := openBegin_oldest H hP hage.ordered hf
    rw [onEvent_begin H hf.step]
    have hfewer : ∀ k' sp', (P.evictOldest H).spans.find k' = some sp' → P.spans.find k' = some sp' := by
      intro k' sp' hk
      rw [hev.find hP.spans] at hk
      split at hk
      · cases hk
      · exact hk
    exact (h.mono hfewer).touch (w := freshSpan s) (fun k' sp' hk => hne k' sp' (hfewer k' sp' hk)) hfind
  · cases onEvent_touched H hP hs hf with
    | fewer find queue => exact h.mono find
    | touched sp seen find queue =>
        rw [← seen] at hne
        exact h.touch hne find

end Aged

/-! ## In step with the scan -/

section InStep

variable {A : Type} (H : HeapLib)

/-- The oldest span is the one a scan finds, when no other is as old. -/
theorem evictByScan_eq {P : Pairer A} (h : P.spans.WF) (hd : Distinct P) {k : UInt64} {sp : OpenSpan}
    (ho : Oldest P.spans k sp) : P.evictByScan = P.dropSpan k := by
  have hmem := (OpenMap.find_eq_some h).mp ho.1
  rw [evictByScan]
  cases hm : P.spans.entries.argmin fun e => e.2.seenTsc.toNat with
  | none =>
      rw [List.argmin_eq_none.mp hm] at hmem
      cases hmem
  | some e =>
      have hfind := (OpenMap.find_eq_some h).mpr (List.argmin_mem hm)
      have hmin : e.2.seenTsc.toNat ≤ sp.seenTsc.toNat :=
        List.le_of_mem_argmin (f := fun e : UInt64 × OpenSpan => e.2.seenTsc.toNat) hmem hm
      have hmax : sp.seenTsc.toNat ≤ e.2.seenTsc.toNat := ho.2 _ _ hfind
      have hkey : e.1 = k := hd _ _ _ _ hfind ho.1 (UInt64.toNat_inj.mp (Nat.le_antisymm hmin hmax))
      simp only [hkey]

theorem abandonEach_withQueue (P : Pairer A) (queue : List EvictCandidate) (next : Nat) (es : List (UInt64 × OpenSpan)) :
    es.foldl (fun P e => P.anomalies (spanPoint e.1) .incAbandoned) (P.withQueue queue next) =
      (es.foldl (fun P e => P.anomalies (spanPoint e.1) .incAbandoned) P).withQueue queue next := by
  induction es generalizing P with
  | nil => rfl
  | cons e es ih =>
      simp only [List.foldl_cons]
      rw [anomalies_withQueue, ih]

theorem abandonAll_withQueue (P : Pairer A) (queue : List EvictCandidate) (next : Nat) :
    (P.withQueue queue next).abandonAll.1 = P.abandonAll.1 := by
  have hsame : (P.withQueue queue next).spans = P.spans := rfl
  simp only [abandonAll, hsame]
  rw [abandonEach_withQueue]
  rfl

theorem sweep_withQueue (P : Pairer A) (queue : List EvictCandidate) (next : Nat) (nowTsc maxAgeCycles : UInt64) :
    ((P.withQueue queue next).sweep nowTsc maxAgeCycles).1 =
      (P.sweep nowTsc maxAgeCycles).1.withQueue queue next := by
  unfold sweep
  split
  · rfl
  · have hpred : ∀ (P : Pairer A) key sp, sweepPred nowTsc maxAgeCycles (P.withQueue queue next) key sp =
        ((sweepPred nowTsc maxAgeCycles P key sp).1,
          (sweepPred nowTsc maxAgeCycles P key sp).2.withQueue queue next) := fun P key sp => by
      unfold sweepPred
      split
      · rw [anomalies_withQueue]
      · rfl
    have hmap : P.spans.eraseIf (sweepPred nowTsc maxAgeCycles) (P.withQueue queue next) =
        ((P.spans.eraseIf (sweepPred nowTsc maxAgeCycles) P).1,
          (P.spans.eraseIf (sweepPred nowTsc maxAgeCycles) P).2.1.withQueue queue next,
          (P.spans.eraseIf (sweepPred nowTsc maxAgeCycles) P).2.2) :=
      OpenMap.eraseIf_map (fun P : Pairer A => P.withQueue queue next) hpred P.spans P
    have hspans : (P.withQueue queue next).spans = P.spans := rfl
    simp only [hspans, hmap]
    rfl

variable [Accum A]

theorem record_withQueue (P : Pairer A) (queue : List EvictCandidate) (next : Nat) (p : UInt32) (f t : UInt8)
    (v : UInt64) (n : UInt32) : (P.withQueue queue next).record p f t v n = (P.record p f t v n).withQueue queue next := by
  unfold record withQueue
  simp only
  cases P.stages.find (stageKey p f t) with
  | some g => rfl
  | none =>
      rcases P.stages.insert (stageKey p f t) (Stage.fresh p f t) with ⟨m, _ | g⟩
      · exact anomalies_withQueue ..
      · rfl

/-- What is not a begin never looks at the queue. -/
theorem onEvent_withQueue (P : Pairer A) (queue : List EvictCandidate) (next : Nat) {s : Sample}
    (hb : s.step ≠ kBeginStep) : (P.withQueue queue next).onEvent H s = (P.onEvent H s).withQueue queue next := by
  cases hs : s.isStamp with
  | false => rw [onEvent_value H hs, onEvent_value H hs, record_withQueue]
  | true =>
      cases hf : P.spans.find s.key with
      | none =>
          rw [onEvent_orphan H hs hb hf, onEvent_orphan (P := P.withQueue queue next) H hs hb hf, anomalies_withQueue]
      | some sp =>
          by_cases hlt : s.timestamp < sp.lastTsc
          · rw [onEvent_backwards H hs hb hf hlt, onEvent_backwards (P := P.withQueue queue next) H hs hb hf hlt,
              anomalies_withQueue]
            rfl
          · by_cases he : s.step = kEndStep
            · rw [onEvent_end H he hf hlt, onEvent_end (P := P.withQueue queue next) H he hf hlt]
              split
              · rw [record_withQueue, record_withQueue]
                rfl
              · rw [record_withQueue]
                rfl
            · rw [onEvent_step H hs hb he hf hlt, onEvent_step (P := P.withQueue queue next) H hs hb he hf hlt,
                record_withQueue]
              rfl

/-- The pairer and the one that scans differ in nothing but the queue. -/
def InStep (P R : Pairer A) : Prop := P = R.withQueue P.evictQueue P.evictNext

omit [Accum A] in
theorem InStep.of_eq {P R : Pairer A} {q : List EvictCandidate} {n : Nat} (h : P = R.withQueue q n) :
    InStep P R := by
  rw [InStep, h]
  rfl

omit [Accum A] in
/-- A begin of a full table takes the same span from both. -/
theorem openBegin_inStep {P R : Pairer A} (hP : P.WF) (hage : Ordered P.spans P.waiting) (hd : Distinct P)
    (h : InStep P R) {s : Sample} : InStep (P.openBegin H s.key s) (R.openBeginByScan s.key s) := by
  have hspans : P.spans = R.spans := by rw [h]; rfl
  have hpeak : P.peakOpen = R.peakOpen := by rw [h]; rfl
  cases hf : P.spans.find s.key with
  | some sp =>
      have hR : R.openBeginByScan s.key s =
          { R.anomalies s.point .incAbandoned with spans := R.spans.modify s.key fun _ => freshSpan s } := by
        rw [hspans] at hf
        simp only [openBeginByScan, hf, anomalies_spans]
        rfl
      rw [openBegin_open H hf, hR]
      refine InStep.of_eq (q := P.evictQueue) (n := P.evictNext) ?_
      rw [hspans, h, anomalies_withQueue]
      rfl
  | none =>
      have hfR : R.spans.find s.key = none := by rw [← hspans]; exact hf
      rcases Nat.lt_or_eq_of_le hP.spans.size_le with hroom | hfull
      · obtain ⟨hv, -⟩ := OpenMap.insert_new (w := freshSpan s) hP.spans hf hroom
        cases hi : P.spans.insert s.key (freshSpan s) with
        | mk m o =>
            rw [hi] at hv
            cases hv
            have hiR : R.spans.insert s.key (freshSpan s) = (m, some (freshSpan s)) := by rw [← hspans]; exact hi
            simp only [freshSpan] at hi hiR
            refine InStep.of_eq (q := P.evictQueue) (n := P.evictNext) ?_
            simp only [openBegin, openBeginByScan, hf, hi, hfR, hiR]
            rw [hpeak]
            conv_lhs => rw [h]
            rfl
      · obtain ⟨k, sp, hev⟩ := evictOldest_oldest H hP (entries_ne_nil_of_full hP hfull) hage
        obtain ⟨queue, next, hstate⟩ := hev.state
        have hdR : Distinct R := by
          unfold Distinct
          rw [← hspans]
          exact hd
        have hscan : R.evictByScan = R.dropSpan k :=
          evictByScan_eq (by rw [← hspans]; exact hP.spans) hdR (by rw [← hspans]; exact hev.oldest)
        have hdrop : P.evictOldest H = (R.dropSpan k).withQueue queue next := by
          rw [hstate, h, dropSpan_withQueue]
          rfl
        have hi := OpenMap.insert_full (w := freshSpan s) hP.spans hf hfull
        have hiR := hi
        rw [hspans] at hiR
        simp only [freshSpan] at hi hiR
        refine InStep.of_eq (q := queue) (n := next) ?_
        simp only [openBegin, openBeginByScan, hf, hi, hfR, hiR, hdrop, hscan]
        rfl

/-- One call keeps the two in step. -/
theorem call_inStep {P R : Pairer A} (hP : P.WF) (hord : Ordered P.spans P.waiting) (hd : Distinct P)
    (h : InStep P R) (c : Call) : InStep (P.call H c) (R.callByScan H c) := by
  cases c with
  | event s =>
      by_cases hb : s.step = kBeginStep
      · have hcall : R.callByScan H (.event s) = R.openBeginByScan s.key s := by
          rw [callByScan, onEventByScan, if_pos hb]
        rw [Pairer.call, onEvent_begin H hb, hcall]
        exact openBegin_inStep H hP hord hd h
      · have hcall : R.callByScan H (.event s) = R.onEvent H s := by rw [callByScan, onEventByScan, if_neg hb]
        rw [Pairer.call, hcall, h]
        exact InStep.of_eq (onEvent_withQueue H R _ _ hb)
  | sweep nowTsc maxAgeCycles =>
      have hsweep : P.call H (.sweep nowTsc maxAgeCycles) =
          (R.sweep nowTsc maxAgeCycles).1.withQueue P.evictQueue P.evictNext := by
        rw [Pairer.call, h]
        exact sweep_withQueue ..
      exact InStep.of_eq hsweep
  | abandonAll =>
      have habandon : P.call H .abandonAll = R.abandonAll.1 := by
        rw [h, Pairer.call, abandonAll_withQueue]
      exact InStep.of_eq (q := []) (n := 0) habandon
  | clearIntervals =>
      refine InStep.of_eq (q := P.evictQueue) (n := P.evictNext) ?_
      rw [Pairer.call, h]
      rfl

end InStep

/-! ## Runs -/

section Runs

variable {A : Type} [Accum A] (H : HeapLib) {P : Pairer A} {times : List UInt64}

omit [Accum A] in
theorem abandonEach_spans (P : Pairer A) (es : List (UInt64 × OpenSpan)) :
    (es.foldl (fun P e => P.anomalies (spanPoint e.1) .incAbandoned) P).spans = P.spans := by
  induction es generalizing P with
  | nil => rfl
  | cons e es ih => exact (ih _).trans (anomalies_spans ..)

theorem stampTimes_single (c : Call) :
    stampTimes [c] = [] ∨ ∃ s, c = .event s ∧ s.isStamp = true ∧ stampTimes [c] = [s.timestamp] := by
  cases c with
  | event s =>
      cases hs : s.isStamp with
      | false => exact Or.inl (by simp [stampTimes, hs])
      | true => exact Or.inr ⟨s, rfl, hs, by simp [stampTimes, hs]⟩
  | sweep nowTsc maxAgeCycles => exact Or.inl rfl
  | abandonAll => exact Or.inl rfl
  | clearIntervals => exact Or.inl rfl

/-- What is not a stamp touches no span, and leaves the queue or clears it. -/
theorem call_fewer (hP : P.WF) {c : Call} (hc : stampTimes [c] = []) :
    (∀ k sp, (P.call H c).spans.find k = some sp → P.spans.find k = some sp) ∧
      ((P.call H c).waiting = P.waiting ∨ (P.call H c).waiting = []) := by
  cases c with
  | event s =>
      cases hs : s.isStamp with
      | false =>
          rw [Pairer.call, onEvent_value H hs]
          exact ⟨fun k sp hk => by rwa [record_spans] at hk, Or.inl (record_waiting ..)⟩
      | true => simp [stampTimes, hs] at hc
  | sweep nowTsc maxAgeCycles =>
      obtain ⟨removed, hswept⟩ := sweep_spec hP nowTsc maxAgeCycles
      refine ⟨fun k sp hk => ?_, Or.inl ?_⟩
      · have hfind := hswept.find k
        rw [Pairer.call] at hk
        rw [hk] at hfind
        exact (Option.filter_eq_some_iff.mp hfind.symm).1
      · rw [Pairer.call, waiting, hswept.queue.1, hswept.queue.2]
        rfl
  | abandonAll =>
      refine ⟨fun k sp hk => ?_, Or.inr rfl⟩
      simp only [Pairer.call, abandonAll, abandonEach_spans] at hk
      rw [OpenMap.find_clear hP.spans] at hk
      cases hk
  | clearIntervals => exact ⟨fun _ _ hk => hk, Or.inl rfl⟩

theorem Aged.call (h : Aged P times) (hP : P.WF) (c : Call) (hle : ∀ t ∈ times, ∀ t' ∈ stampTimes [c], t ≤ t') :
    Aged (P.call H c) (times ++ stampTimes [c]) := by
  rcases stampTimes_single c with hnone | ⟨s, rfl, hs, hone⟩
  · obtain ⟨hfind, hqueue⟩ := call_fewer H hP hnone
    rw [hnone, List.append_nil]
    exact h.mono hfind hqueue
  · rw [hone] at hle ⊢
    exact h.stamp H hP hs fun t ht => hle t ht _ (List.mem_singleton_self _)

theorem Distinct.call (h : Distinct P) (hage : Aged P times) (hP : P.WF) (c : Call)
    (hlt : ∀ t ∈ times, ∀ t' ∈ stampTimes [c], t < t') : Distinct (P.call H c) := by
  rcases stampTimes_single c with hnone | ⟨s, rfl, hs, hone⟩
  · exact h.mono (call_fewer H hP hnone).1
  · rw [hone] at hlt
    exact h.stamp H hage hP hs fun t ht => hlt t ht _ (List.mem_singleton_self _)

theorem stampTimes_append (calls calls' : List Call) :
    stampTimes (calls ++ calls') = stampTimes calls ++ stampTimes calls' := List.filterMap_append

/-- A run keeps the ages, as long as the stamps do not go back in time. -/
theorem aged_run (cfg : Config) (cycles : UInt64) {calls : List Call}
    (hmono : (stampTimes calls).Pairwise (· ≤ ·)) :
    (((reset cfg : Pairer A).setOverhead cycles).callAll H calls).WF ∧
      Aged (((reset cfg : Pairer A).setOverhead cycles).callAll H calls) (stampTimes calls) := by
  have hrun : (∃ L, Balanced cfg (((reset cfg : Pairer A).setOverhead cycles).callAll H calls) L) ∧
      Aged (((reset cfg : Pairer A).setOverhead cycles).callAll H calls) (stampTimes calls) := by
    induction calls using List.reverseRecOn with
    | nil => exact ⟨⟨_, (balanced_reset cfg).setOverhead cycles⟩, aged_reset cfg cycles⟩
    | append_singleton calls c ih =>
        rw [stampTimes_append] at hmono ⊢
        obtain ⟨hdone, -, hle⟩ := List.pairwise_append.mp hmono
        obtain ⟨⟨L, hbal⟩, hage⟩ := ih hdone
        rw [callAll, List.foldl_append]
        exact ⟨hbal.call H c, hage.call H hbal.wf c hle⟩
  obtain ⟨⟨L, hbal⟩, hage⟩ := hrun
  exact ⟨hbal.wf, hage⟩

/-- With no two stamps at one time, a run stays in step with the one that scans. -/
theorem inStep_run (cfg : Config) (cycles : UInt64) {calls : List Call}
    (hmono : (stampTimes calls).Pairwise (· < ·)) :
    Distinct (((reset cfg : Pairer A).setOverhead cycles).callAll H calls) ∧
      InStep (((reset cfg : Pairer A).setOverhead cycles).callAll H calls)
        (((reset cfg : Pairer A).setOverhead cycles).callAllByScan H calls) := by
  induction calls using List.reverseRecOn with
  | nil =>
      refine ⟨fun k k' sp sp' hk => ?_, InStep.of_eq (q := []) (n := 0) rfl⟩
      have hclosed := (aged_reset (A := A) cfg cycles).spans k sp hk
      cases hclosed
  | append_singleton calls c ih =>
      rw [stampTimes_append] at hmono
      obtain ⟨hdone, -, hlt⟩ := List.pairwise_append.mp hmono
      obtain ⟨hd, hstep⟩ := ih hdone
      obtain ⟨hwf, hage⟩ := aged_run (A := A) H cfg cycles
        (hdone.imp fun hlt => UInt64.le_of_lt hlt)
      rw [callAll, callAllByScan, List.foldl_append, List.foldl_append]
      exact ⟨hd.call H hage hwf c hlt, call_inStep H hwf hage.ordered hd hstep c⟩

end Runs

end Pairer

/-- As long as the stamps do not go back in time, whatever else is called, each span evicted is one of the oldest of the
table; with no two stamps at one time, the run leaves what a pairer that scans its table for each eviction leaves. -/
theorem batched_eviction_is_oldest_first {A : Type} [Accum A] (H : HeapLib) (cfg : Config) (overheadCycles : UInt64)
    (calls : List Call) (hmono : (stampTimes calls).Pairwise (· ≤ ·)) :
    let P₀ : Pairer A := (Pairer.reset cfg).setOverhead overheadCycles
    (∀ done s rest, calls = done ++ .event s :: rest → (P₀.callAll H done).ForcesEviction s →
      ∃ k sp, Pairer.Oldest (P₀.callAll H done).spans k sp ∧
        (P₀.callAll H done).EvictedFor s k ((P₀.callAll H done).onEvent H s)) ∧
    ((stampTimes calls).Pairwise (· < ·) → ∀ done rest, calls = done ++ rest →
      let P := P₀.callAll H done
      let R := P₀.callAllByScan H done
      P.spans = R.spans ∧ P.stages = R.stages ∧ P.points = R.points ∧ P.overflow = R.overflow) := by
  intro P₀
  refine ⟨fun done s rest hcalls hf => ?_, fun hstrict done rest hcalls => ?_⟩
  · rw [hcalls, Pairer.stampTimes_append] at hmono
    obtain ⟨hwf, hage⟩ := Pairer.aged_run (A := A) H cfg overheadCycles
      (List.pairwise_append.mp hmono).1
    obtain ⟨k, sp, hev, -, -, hfor⟩ := Pairer.openBegin_oldest H hwf hage.ordered hf
    rw [Pairer.onEvent_begin H hf.step]
    exact ⟨k, sp, hev.oldest, hfor⟩
  · rw [hcalls, Pairer.stampTimes_append] at hstrict
    obtain ⟨-, hstep⟩ := Pairer.inStep_run (A := A) H cfg overheadCycles
      (List.pairwise_append.mp hstrict).1
    intro P R
    have hPR : P = R.withQueue P.evictQueue P.evictNext := hstep
    refine ⟨?_, ?_, ?_, ?_⟩
    · rw [hPR]
      rfl
    · rw [hPR]
      rfl
    · rw [hPR]
      rfl
    · rw [hPR]
      rfl

/-- A table of 24 spans. The begin after them fills the queue with the three oldest and evicts the first; the second is
touched, so the next begin goes past it to the third. -/
def crowdedRun : List Call :=
  (List.range 25).map (fun k => .event ⟨10 * UInt64.ofNat k, UInt32.ofNat k, makeEvent kBeginStep 5⟩) ++
    [.event ⟨250, 1, makeEvent 0x01 5⟩, .event ⟨260, 25, makeEvent kBeginStep 5⟩]

theorem batched_eviction_is_oldest_first_crowdedRun :
    let P₀ : Pairer (Accumulator 4) := (Pairer.reset ⟨24, 4⟩).setOverhead 3
    let P := P₀.callAll sortingLib (crowdedRun.take 26)
    P.evictQueue.map EvictCandidate.key = [spanKey 0 5, spanKey 1 5, spanKey 2 5] ∧ P.evictNext = 1 ∧
      (∃ k sp, Pairer.Oldest P.spans k sp ∧ P.EvictedFor ⟨260, 25, makeEvent kBeginStep 5⟩ k
        (P.onEvent sortingLib ⟨260, 25, makeEvent kBeginStep 5⟩)) ∧
      (P₀.callAll sortingLib crowdedRun).evictNext = 3 ∧
      (P₀.callAll sortingLib crowdedRun).spans = (P₀.callAllByScan sortingLib crowdedRun).spans := by
  have h := batched_eviction_is_oldest_first (A := Accumulator 4) sortingLib ⟨24, 4⟩ 3 crowdedRun (by decide +kernel)
  exact ⟨by decide +kernel, by decide +kernel,
    h.1 (crowdedRun.take 26) _ [] rfl ⟨by decide, by decide +kernel, by decide +kernel⟩,
    by decide +kernel, (h.2 (by decide +kernel) crowdedRun [] (List.append_nil _).symm).1⟩

end SlickPerfmon
