import SlickPerfmon.Pairing.Lemmas.Basic
import SlickPerfmon.Report.Flush

/-!
# Counters only grow

Whatever the pairer is handed, the counters of every point and of the overflow bucket stay or grow, and a point
that has counters keeps them. Everything `on_event`, `sweep` and `abandon_all` do to the counters is a chain of
bumps.
-/

namespace SlickPerfmon

open Library

namespace PointAnomalies

/-- Counter by counter. -/
def Le (a b : PointAnomalies) : Prop := ∀ c, a.get c ≤ b.get c

theorem Le.refl (a : PointAnomalies) : a.Le a := fun _ => Nat.le_refl _

theorem Le.trans {a b c : PointAnomalies} (h : a.Le b) (h' : b.Le c) : a.Le c := fun i => (h i).trans (h' i)

theorem zero_le (a : PointAnomalies) : Le {} a := fun c => by cases c <;> exact Nat.zero_le _

theorem le_incInvalid (a : PointAnomalies) : a.Le a.incInvalid := fun c => by
  cases c <;> simp [get, incInvalid]

theorem le_incAbandoned (a : PointAnomalies) : a.Le a.incAbandoned := fun c => by
  cases c <;> simp [get, incAbandoned]

theorem le_incOrphan (a : PointAnomalies) : a.Le a.incOrphan := fun c => by
  cases c <;> simp [get, incOrphan]

theorem le_incOutOfRange (a : PointAnomalies) : a.Le a.incOutOfRange := fun c => by
  cases c <;> simp [get, incOutOfRange]

end PointAnomalies

namespace Pairer

variable {A : Type}

/-- The point table is well formed and its keys are points. -/
structure PointsKept (P : Pairer A) : Prop where
  wf : P.points.WF
  keyed : ∀ k a, P.points.find k = some a → k = k.toUInt32.toUInt64

/-- From `P` to `P'` no counter is lost and none goes down. -/
structure Grows (P P' : Pairer A) : Prop where
  kept : P.PointsKept → P'.PointsKept
  max : P'.points.maxEntries = P.points.maxEntries
  stages : P'.stages.maxEntries = P.stages.maxEntries
  points : P.PointsKept → ∀ k a, P.points.find k = some a → ∃ a', P'.points.find k = some a' ∧ a.Le a'
  overflow : P.overflow.Le P'.overflow

namespace Grows

variable {P P' P'' : Pairer A}

theorem of_eq (hp : P'.points = P.points) (ho : P'.overflow = P.overflow)
    (hs : P'.stages.maxEntries = P.stages.maxEntries) : Grows P P' where
  kept h := ⟨by rw [hp]; exact h.wf, by rw [hp]; exact h.keyed⟩
  max := by rw [hp]
  stages := hs
  points _ k a ha := ⟨a, by rw [hp]; exact ha, .refl a⟩
  overflow := by rw [ho]; exact .refl _

theorem refl (P : Pairer A) : Grows P P := of_eq rfl rfl rfl

theorem trans (h : Grows P P') (h' : Grows P' P'') : Grows P P'' where
  kept hk := h'.kept (h.kept hk)
  max := h'.max.trans h.max
  stages := h'.stages.trans h.stages
  points hk k a ha := by
    obtain ⟨a', ha', hle⟩ := h.points hk k a ha
    obtain ⟨a'', ha'', hle'⟩ := h'.points (h.kept hk) k a' ha'
    exact ⟨a'', ha'', hle.trans hle'⟩
  overflow := h.overflow.trans h'.overflow

end Grows

theorem points_anomalies (P : Pairer A) (p : UInt32) (inc : PointAnomalies → PointAnomalies) :
    (P.anomalies p inc).points.maxEntries = P.points.maxEntries := by
  unfold anomalies
  split
  · exact OpenMap.maxEntries_modify _ _ _
  · have hins := OpenMap.maxEntries_insert P.points p.toUInt64 {}
    split
    · rename_i m v hi
      rw [hi] at hins
      exact (OpenMap.maxEntries_modify _ _ _).trans hins
    · rfl

theorem grows_anomalies (P : Pairer A) (p : UInt32) {inc : PointAnomalies → PointAnomalies}
    (hinc : ∀ a : PointAnomalies, a.Le (inc a)) : Grows P (P.anomalies p inc) := by
  have hcases : P.PointsKept → (P.anomalies p inc).PointsKept ∧
      (∀ k a, P.points.find k = some a → ∃ a', (P.anomalies p inc).points.find k = some a' ∧ a.Le a') := by
    intro h
    have hwf : (P.anomalies p inc).points.WF := anomalies_points_wf h.wf
    have hp : p.toUInt64 = p.toUInt64.toUInt32.toUInt64 := by simp
    rcases anomalies_cases p inc h.wf with ⟨a₀, ha₀, hm, -⟩ | ⟨hn, -, ⟨m, hi, hm⟩, -⟩ | ⟨-, -, he, -⟩
    · refine ⟨⟨hwf, fun k a ha => ?_⟩, fun k a ha => ?_⟩
      · rw [hm.find] at ha
        split at ha
        · rename_i hk; rw [hk]; exact hp
        · exact h.keyed k a ha
      · rw [hm.find]
        split
        · rename_i hk
          subst hk
          cases ha.symm.trans ha₀
          exact ⟨_, rfl, hinc _⟩
        · exact ⟨a, ha, .refl a⟩
    · refine ⟨⟨hwf, fun k a ha => ?_⟩, fun k a ha => ?_⟩
      · rw [hm.find, hi.find] at ha
        split at ha
        · rename_i hk; rw [hk]; exact hp
        · rename_i hk
          exact h.keyed k a ha
      · rw [hm.find, hi.find]
        split
        · rename_i hk
          subst hk
          rw [hn] at ha; cases ha
        · exact ⟨a, ha, .refl a⟩
    · exact ⟨⟨hwf, by rw [he]; exact h.keyed⟩, by rw [he]; exact fun k a ha => ⟨a, ha, .refl a⟩⟩
  refine ⟨fun h => (hcases h).1, points_anomalies P p inc, by rw [anomalies_stages], fun h => (hcases h).2, ?_⟩
  unfold anomalies
  split
  · exact .refl _
  · split
    · exact .refl _
    · exact hinc _

/-! ## Calls -/

theorem grows_record [Accum A] (P : Pairer A) (p : UInt32) (f t : UInt8) (v : UInt64) (n : UInt32) :
    Grows P (P.record p f t v n) := by
  unfold record
  simp only
  split
  · exact .of_eq rfl rfl (OpenMap.maxEntries_modify _ _ _)
  · have hins := OpenMap.maxEntries_insert P.stages (stageKey p f t) (Stage.fresh p f t)
    split
    · rename_i m v hi
      rw [hi] at hins
      exact .of_eq rfl rfl ((OpenMap.maxEntries_modify _ _ _).trans hins)
    · exact grows_anomalies P p PointAnomalies.le_incOutOfRange

theorem grows_tryCandidates (P : Pairer A) (cs : List EvictCandidate) : Grows P (P.tryCandidates cs).1 := by
  induction cs generalizing P with
  | nil => exact .refl P
  | cons c rest ih =>
      have hnext : Grows P { P with evictNext := P.evictNext + 1 } := .of_eq rfl rfl rfl
      unfold tryCandidates
      simp only
      split
      · exact hnext.trans (ih _)
      · split
        · exact hnext.trans ((grows_anomalies _ _ PointAnomalies.le_incAbandoned).trans (.of_eq rfl rfl rfl))
        · exact hnext.trans (ih _)

variable (H : HeapLib)

theorem grows_evictPass (P : Pairer A) : Grows P (P.evictPass H).1 := by
  have htry := grows_tryCandidates P (P.evictQueue.drop P.evictNext)
  unfold evictPass
  cases hr : P.tryCandidates (P.evictQueue.drop P.evictNext) with
  | mk P' b =>
      rw [hr] at htry
      cases b with
      | true => exact htry
      | false => exact htry.trans (.of_eq rfl rfl rfl)

theorem grows_evictOldest (P : Pairer A) : Grows P (P.evictOldest H) := by
  have hpass := grows_evictPass H P
  unfold evictOldest
  cases hr : P.evictPass H with
  | mk P' b =>
      rw [hr] at hpass
      cases b with
      | true => exact hpass
      | false => exact hpass.trans (grows_evictPass H P')

theorem grows_openBegin (P : Pairer A) (key : UInt64) (s : Sample) : Grows P (P.openBegin H key s) := by
  unfold openBegin
  simp only
  split
  · exact (grows_anomalies P s.point PointAnomalies.le_incAbandoned).trans (.of_eq rfl rfl rfl)
  · split
    · exact .of_eq rfl rfl rfl
    · exact (grows_evictOldest H P).trans (.of_eq rfl rfl rfl)

theorem grows_onEvent [Accum A] (P : Pairer A) (s : Sample) : Grows P (P.onEvent H s) := by
  unfold onEvent
  simp only
  split
  · exact grows_record ..
  · split
    · exact grows_openBegin H P _ s
    · split
      · exact grows_anomalies P s.point PointAnomalies.le_incOrphan
      · split
        · exact (grows_anomalies P s.point PointAnomalies.le_incInvalid).trans (.of_eq rfl rfl rfl)
        · split
          · split
            · exact (grows_record ..).trans ((grows_record ..).trans (.of_eq rfl rfl rfl))
            · exact (grows_record ..).trans (.of_eq rfl rfl rfl)
          · exact (grows_record ..).trans (.of_eq rfl rfl rfl)

theorem grows_sweep {P : Pairer A} (h : P.spans.WF) (nowTsc maxAgeCycles : UInt64) :
    Grows P (P.sweep nowTsc maxAgeCycles).1 := by
  unfold sweep
  split
  · exact .refl P
  · obtain ⟨m, Q, n, hrun, -, hQ⟩ := OpenMap.eraseIf_induct (sweepPred nowTsc maxAgeCycles) h P
      (fun _ Q _ => Grows P Q) (.refl P)
      (by
        intro m Q n key sp _ hQ _ hpred
        unfold sweepPred at hpred ⊢
        split at hpred
        · cases hpred
        · rename_i hcond; rw [if_neg hcond]; exact hQ)
      (by
        intro m m' Q n key sp _ hQ _ hpred _
        unfold sweepPred at hpred ⊢
        split at hpred
        · rename_i hcond
          rw [if_pos hcond]
          exact hQ.trans (grows_anomalies Q _ PointAnomalies.le_incAbandoned)
        · cases hpred)
    simp only [hrun]
    exact hQ.trans (.of_eq rfl rfl rfl)

theorem grows_abandonAll (P : Pairer A) : Grows P P.abandonAll.1 := by
  have hfold : ∀ (es : List (UInt64 × OpenSpan)) (Q : Pairer A),
      Grows Q (es.foldl (fun Q e => Q.anomalies (spanPoint e.1) .incAbandoned) Q) := by
    intro es
    induction es with
    | nil => exact fun Q => .refl Q
    | cons e es ih => exact fun Q => (grows_anomalies Q _ PointAnomalies.le_incAbandoned).trans (ih _)
  exact (hfold P.spans.entries P).trans (.of_eq rfl rfl rfl)

end Pairer

end SlickPerfmon
