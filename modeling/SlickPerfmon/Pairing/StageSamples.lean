import SlickPerfmon.Pairing.Overhead
import SlickPerfmon.Stats.Merge

/-!
# The samples of one stage

Between two flushes a stage's interval holds what was recorded since the last one, its lifetime record what was
recorded before. A stage that is not in the table has no samples, or the table is full and stays so.
-/

namespace SlickPerfmon

open Library

namespace Pairer

variable {A : Type}

/-- The samples that calls of `record` bring to the stage of a key. -/
def samplesOf (key overhead : UInt64) (p : UInt32) (ms : List Measurement) : List UInt64 :=
  (ms.filter fun m => stageKey p m.fromStep m.toStep = key).map (·.stored overhead)

/-- The samples that an event brings to the stage of a key, in order. -/
def eventSamples (key : UInt64) (P : Pairer A) (s : Sample) : List UInt64 :=
  samplesOf key P.overheadCycles s.point (P.measures s)

variable [Accum A]

def recordAll (P : Pairer A) (p : UInt32) (ms : List Measurement) : Pairer A :=
  ms.foldl (fun P m => P.record p m.fromStep m.toStep m.cycles m.transitions) P

/-- The stage of a key holds what was recorded before the last flush and since; `reported` counts what the flushes
reported of it. -/
structure StageFed (key : UInt64) (before since : List UInt64) (reported : Nat) (P : Pairer A) : Prop where
  present : ∀ g, P.stages.find key = some g →
    g.cumulative = Accum.feed before ∧ g.interval = Accum.feed since ∧ reported = before.length
  absent : P.stages.find key = none →
    (before = [] ∧ since = [] ∧ reported = 0) ∨ P.stages.size = P.stages.maxEntries

namespace StageFed

variable {key : UInt64} {before since : List UInt64} {reported : Nat} {P : Pairer A}

theorem congr (h : StageFed key before since reported P) {Q : Pairer A} (hs : Q.stages = P.stages) :
    StageFed key before since reported Q :=
  ⟨by rw [hs]; exact h.present, by rw [hs]; exact h.absent⟩

omit [Accum A] in
/-- A table that got a key it did not have was not full. -/
theorem room {P' : Pairer A} (hP : P.stages.WF) (hP' : P'.stages.WF)
    (hmax : P'.stages.maxEntries = P.stages.maxEntries) {k : UInt64} {g : Stage A}
    (hnone : P.stages.find k = none)
    (hnew : ∀ k', P'.stages.find k' = if k' = k then some g else P.stages.find k') :
    P.stages.size < P.stages.maxEntries := by
  have hkeys : ∀ k' v, P'.stages.find k' = some v → k' ∈ (P'.stages.entries.map Prod.fst).toFinset := by
    intro k' v hv
    exact List.mem_toFinset.mpr (List.mem_map.mpr ⟨(k', v), (OpenMap.find_eq_some hP').mp hv, rfl⟩)
  have hcard := OpenMap.size_lt_card hP (id : UInt64 → UInt64) (hkeys k g (by rw [hnew, if_pos rfl])) hnone
    (by
      intro k' v hv
      have hne : k' ≠ k := fun he => by rw [he, hnone] at hv; cases hv
      exact ⟨k', hkeys k' v (by rw [hnew, if_neg hne]; exact hv), rfl⟩)
  have hlen := List.toFinset_card_le (P'.stages.entries.map Prod.fst)
  rw [List.length_map, hP'.size_eq] at hlen
  have hle := hP'.size_le
  omega

/-- One call of `record`. -/
theorem record (hP : P.WF) (hk : P.StagesKeyed) (h : StageFed key before since reported P) (p : UInt32)
    (m : Measurement) : StageFed key before (since ++ samplesOf key P.overheadCycles p [m]) reported
      (P.record p m.fromStep m.toStep m.cycles m.transitions) := by
  have hrec := record_spec hP hk p m.fromStep m.toStep m.cycles m.transitions
  have hfull : P.stages.size = P.stages.maxEntries →
      (P.record p m.fromStep m.toStep m.cycles m.transitions).stages.size =
        (P.record p m.fromStep m.toStep m.cycles m.transitions).stages.maxEntries := by
    intro hfull
    have hle := hrec.wf.1.size_le
    have hmax := hrec.maxStages
    rcases hrec.size with hsize | ⟨-, hsize⟩
    · omega
    · omega
  rcases hrec.once with ⟨g, -, hold, hnew, -, -⟩ | ⟨hnone, hroom, hst, -, -, -⟩
  · by_cases hkey : stageKey p m.fromStep m.toStep = key
    · have hone : samplesOf key P.overheadCycles p [m] = [m.stored P.overheadCycles] := by
        simp [samplesOf, hkey]
      rw [hone]
      refine ⟨fun g' hg' => ?_, fun hnone => ?_⟩
      · rw [hnew, if_pos hkey.symm] at hg'
        cases hg'
        rw [Accum.feed_append]
        rcases hold with hold | ⟨hnone, rfl⟩
        · obtain ⟨hc, hi, hn⟩ := h.present g (by rw [← hkey]; exact hold)
          exact ⟨hc, congrArg (Accum.add · _) hi, hn⟩
        · have hroom := room hP.stages hrec.wf.1 hrec.maxStages hnone hnew
          rcases h.absent (by rw [← hkey]; exact hnone) with ⟨rfl, rfl, rfl⟩ | hf
          · exact ⟨rfl, rfl, rfl⟩
          · omega
      · rw [hnew, if_pos hkey.symm] at hnone
        cases hnone
    · have hone : samplesOf key P.overheadCycles p [m] = [] := by simp [samplesOf, hkey]
      have hother := hnew key
      rw [if_neg fun he => hkey he.symm] at hother
      rw [hone, List.append_nil]
      refine ⟨fun g' hg' => h.present g' (by rw [← hother]; exact hg'), fun hnone => ?_⟩
      rcases h.absent (by rw [← hother]; exact hnone) with hempty | hf
      · exact Or.inl hempty
      · exact Or.inr (hfull hf)
  · by_cases hkey : stageKey p m.fromStep m.toStep = key
    · -- no room for the stage: the table stays full
      refine ⟨fun g' hg' => ?_, fun _ => Or.inr (hfull hroom)⟩
      rw [hst, ← hkey, hnone] at hg'
      cases hg'
    · have hone : samplesOf key P.overheadCycles p [m] = [] := by simp [samplesOf, hkey]
      rw [hone, List.append_nil]
      exact h.congr hst

theorem recordAll (hP : P.WF) (hk : P.StagesKeyed) (h : StageFed key before since reported P) (p : UInt32)
    (ms : List Measurement) :
    StageFed key before (since ++ samplesOf key P.overheadCycles p ms) reported (P.recordAll p ms) := by
  induction ms generalizing P since with
  | nil =>
      have hnone : samplesOf key P.overheadCycles p [] = [] := rfl
      rw [hnone, List.append_nil]
      exact h
  | cons m ms ih =>
      have hrec := record_spec hP hk p m.fromStep m.toStep m.cycles m.transitions
      have hnext := ih (wf_record hP hk p m.fromStep m.toStep m.cycles m.transitions) hrec.keyed (h.record hP hk p m)
      have hcons : samplesOf key P.overheadCycles p (m :: ms) =
          samplesOf key P.overheadCycles p [m] ++ samplesOf key P.overheadCycles p ms := by
        rw [samplesOf, samplesOf, samplesOf, ← List.map_append, ← List.filter_append, List.singleton_append]
      rw [record_overheadCycles, List.append_assoc, ← hcons] at hnext
      exact hnext

end StageFed

variable (H : HeapLib) {cfg : Config} {P : Pairer A} {L : Ledger}

/-- An event changes the stages as its calls of `record` do. -/
theorem onEvent_recordAll (h : Balanced cfg P L) (s : Sample) :
    (P.onEvent H s).stages = (P.recordAll s.point (P.measures s)).stages := by
  unfold measures
  cases hs : s.isStamp with
  | false => rw [onEvent_value H hs, if_pos rfl]; rfl
  | true =>
      rw [if_neg (by simp)]
      cases ha : P.accepts s with
      | none => exact (h.event H s).2.silent hs ha
      | some sp =>
          obtain ⟨-, hb, hf, hlt⟩ := accepts_eq_some ha
          by_cases he : s.step = kEndStep
          · rw [onEvent_end H he hf hlt]
            by_cases hl : sp.lastStep = kBeginStep
            · simp only [he, hl, ne_eq, not_true, if_false, if_true, List.nil_append]
              rfl
            · simp only [he, hl, ne_eq, not_false_eq_true, if_false, if_true]
              rfl
          · rw [onEvent_step H hs hb he hf hlt]
            simp only [he, if_false]
            rfl

theorem StageFed.event {key : UInt64} {before since : List UInt64} {reported : Nat} (hb : Balanced cfg P L)
    (h : StageFed key before since reported P) (s : Sample) :
    StageFed key before (since ++ P.eventSamples key s) reported (P.onEvent H s) :=
  (h.recordAll hb.wf hb.keyed s.point (P.measures s)).congr (onEvent_recordAll H hb s)

omit [Accum A] in
theorem abandonAll_stages (P : Pairer A) : P.abandonAll.1.stages = P.stages := by
  have hfold : ∀ (es : List (UInt64 × OpenSpan)) (Q : Pairer A),
      (es.foldl (fun Q e => Q.anomalies (spanPoint e.1) .incAbandoned) Q).stages = Q.stages := by
    intro es
    induction es with
    | nil => exact fun _ => rfl
    | cons e es ih => exact fun Q => (ih _).trans (anomalies_stages ..)
  exact hfold P.spans.entries P

end Pairer

end SlickPerfmon
