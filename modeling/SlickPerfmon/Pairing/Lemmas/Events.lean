import SlickPerfmon.Pairing.Lemmas.Basic

/-!
# The branches of `on_event`

One equation for each way an event is taken, with the span found under its key.
-/

namespace SlickPerfmon

theorem Sample.isStamp_iff {s : Sample} : s.isStamp = true ↔ stepOf s.event ≠ kValueStep := by
  simp [Sample.isStamp, isValueEvent]

theorem Sample.isStamp_eq_false {s : Sample} : s.isStamp = false ↔ stepOf s.event = kValueStep := by
  simp [Sample.isStamp, isValueEvent]

namespace Pairer

open Library

variable {A : Type} (H : HeapLib) {P : Pairer A} {s : Sample} {sp : OpenSpan}

/-! ## Begins -/

/-- The span a begin leaves open. -/
def freshSpan (s : Sample) : OpenSpan := ⟨s.timestamp, s.timestamp, s.timestamp, 0, kBeginStep⟩

theorem openBegin_open (hf : P.spans.find s.key = some sp) :
    P.openBegin H s.key s =
      { P.anomalies s.point .incAbandoned with spans := P.spans.modify s.key fun _ => freshSpan s } := by
  simp only [openBegin, hf, anomalies_spans]
  rfl

/-- A begin of a closed key with room in the table evicts nothing. -/
theorem openBegin_room (h : P.spans.WF) (hf : P.spans.find s.key = none)
    (hroom : P.spans.size < P.spans.maxEntries) :
    ∃ spans peak, OpenMap.Inserted P.spans s.key (freshSpan s) spans ∧
      P.openBegin H s.key s = { P with spans := spans, peakOpen := peak } := by
  obtain ⟨hv, hins⟩ := OpenMap.insert_new (w := freshSpan s) h hf hroom
  have hopen : P.openBegin H s.key s =
      { P with
        spans := (P.spans.insert s.key (freshSpan s)).1
        peakOpen := if (P.spans.insert s.key (freshSpan s)).1.size > P.peakOpen then
          (P.spans.insert s.key (freshSpan s)).1.size else P.peakOpen } := by
    cases hi : P.spans.insert s.key (freshSpan s) with
    | mk m o =>
        rw [hi] at hv
        cases hv
        simp only [freshSpan] at hi
        simp only [openBegin, hf, hi]
  exact ⟨_, _, hins, hopen⟩

/-! ## Events -/

variable [Accum A]

theorem onEvent_value (hv : s.isStamp = false) :
    P.onEvent H s = P.record s.point kValueStep kValueStep s.timestamp 0 := by
  simp [onEvent, Sample.isStamp_eq_false.mp hv]

theorem onEvent_begin (hb : s.step = kBeginStep) : P.onEvent H s = P.openBegin H s.key s := by
  have hb' : stepOf s.event = kBeginStep := hb
  have hv : kBeginStep ≠ kValueStep := by decide
  simp [onEvent, hb', hv, Sample.key, Sample.seq]

theorem onEvent_orphan (hs : s.isStamp = true) (hb : s.step ≠ kBeginStep)
    (hf : P.spans.find s.key = none) : P.onEvent H s = P.anomalies s.point .incOrphan := by
  have hb' : stepOf s.event ≠ kBeginStep := hb
  have hf' : P.spans.find (spanKey s.point (seqOf s.event)) = none := hf
  simp only [onEvent, Sample.isStamp_iff.mp hs, hb', if_false, hf']

theorem onEvent_backwards (hs : s.isStamp = true) (hb : s.step ≠ kBeginStep)
    (hf : P.spans.find s.key = some sp) (hlt : s.timestamp < sp.lastTsc) :
    P.onEvent H s =
      { P.anomalies s.point .incInvalid with spans := (P.spans.erase s.key).1 } := by
  have hb' : stepOf s.event ≠ kBeginStep := hb
  have hf' : P.spans.find (spanKey s.point (seqOf s.event)) = some sp := hf
  simp only [onEvent, Sample.isStamp_iff.mp hs, hb', if_false, hf', hlt, if_true, anomalies_spans]
  rfl

theorem onEvent_end (he : s.step = kEndStep) (hf : P.spans.find s.key = some sp)
    (hle : ¬ s.timestamp < sp.lastTsc) :
    P.onEvent H s =
      { (if sp.lastStep ≠ kBeginStep then
          P.record s.point sp.lastStep kEndStep (s.timestamp - sp.lastTsc) 1
        else P).record s.point kBeginStep kBeginStep (s.timestamp - sp.startTsc) (sp.transitions + 1) with
        spans := (P.spans.erase s.key).1 } := by
  have he' : stepOf s.event = kEndStep := he
  have hv : kEndStep ≠ kValueStep := by decide
  have hb : kEndStep ≠ kBeginStep := by decide
  have hf' : P.spans.find (spanKey s.point (seqOf s.event)) = some sp := hf
  simp only [onEvent, he', hv, hb, if_false, hf', hle, if_true, record_spans]
  by_cases hl : sp.lastStep = kBeginStep
  · simp only [hl, ne_eq, not_true, if_false]; rfl
  · simp only [ne_eq, hl, not_false_eq_true, if_true, record_spans]; rfl

theorem onEvent_step (hs : s.isStamp = true) (hb : s.step ≠ kBeginStep) (he : s.step ≠ kEndStep)
    (hf : P.spans.find s.key = some sp) (hle : ¬ s.timestamp < sp.lastTsc) :
    P.onEvent H s =
      { P.record s.point sp.lastStep s.step (s.timestamp - sp.lastTsc) 1 with
        spans := P.spans.modify s.key fun sp =>
          { sp with
            lastTsc := s.timestamp, seenTsc := s.timestamp, lastStep := s.step,
            transitions := sp.transitions + 1 } } := by
  have hb' : stepOf s.event ≠ kBeginStep := hb
  have he' : stepOf s.event ≠ kEndStep := he
  have hf' : P.spans.find (spanKey s.point (seqOf s.event)) = some sp := hf
  simp only [onEvent, Sample.isStamp_iff.mp hs, hb', if_false, hf', hle, he', record_spans]
  rfl

end Pairer

end SlickPerfmon
