import SlickPerfmon.Pairing.Pairer
import SlickPerfmon.Store.Lemmas.Erase
import Mathlib.Algebra.BigOperators.Group.List.Basic

/-!
# What `anomalies` and `record` change

Both touch one table and leave the rest of the pairer alone. `tally` sums a counter over all points and the
overflow bucket; a bump raises it by exactly what it adds, whether or not the point table is full.
-/

namespace SlickPerfmon.Pairer

open Library

variable {A : Type}

/-- The three tables are well formed and a refill takes at least one candidate. -/
structure WF (P : Pairer A) : Prop where
  spans : P.spans.WF
  stages : P.stages.WF
  points : P.points.WF
  batch : 0 < P.evictBatch

theorem wf_reset (cfg : Config) : (reset cfg : Pairer A).WF where
  spans := OpenMap.wf_reset _
  stages := OpenMap.wf_reset _
  points := OpenMap.wf_reset _
  batch := by
    simp only [reset]
    split
    · omega
    · rename_i h
      exact Nat.pos_of_ne_zero fun h0 => h (UInt32.toNat_inj.mp (by simpa using h0))

/-- A counter summed over all points and the overflow bucket. -/
def tally (f : PointAnomalies → Nat) (P : Pairer A) : Nat :=
  (P.points.entries.map fun e => f e.2).sum + f P.overflow

/-! ## `anomalies` -/

section Anomalies

variable (P : Pairer A) (p : UInt32) (inc : PointAnomalies → PointAnomalies)

@[simp] theorem anomalies_spans : (P.anomalies p inc).spans = P.spans := by
  unfold anomalies; split <;> try split
  all_goals rfl

@[simp] theorem anomalies_stages : (P.anomalies p inc).stages = P.stages := by
  unfold anomalies; split <;> try split
  all_goals rfl

@[simp] theorem anomalies_overheadCycles : (P.anomalies p inc).overheadCycles = P.overheadCycles := by
  unfold anomalies; split <;> try split
  all_goals rfl

@[simp] theorem anomalies_evictQueue : (P.anomalies p inc).evictQueue = P.evictQueue := by
  unfold anomalies; split <;> try split
  all_goals rfl

@[simp] theorem anomalies_evictNext : (P.anomalies p inc).evictNext = P.evictNext := by
  unfold anomalies; split <;> try split
  all_goals rfl

@[simp] theorem anomalies_evictBatch : (P.anomalies p inc).evictBatch = P.evictBatch := by
  unfold anomalies; split <;> try split
  all_goals rfl

variable {P}

/-- The three outcomes of `anomalies`: the point has counters, gets them, or shares the overflow bucket. -/
theorem anomalies_cases (h : P.points.WF) :
    (∃ a, P.points.find p.toUInt64 = some a ∧
      OpenMap.Modified P.points p.toUInt64 a (inc a) (P.anomalies p inc).points ∧
      (P.anomalies p inc).overflow = P.overflow) ∨
    (P.points.find p.toUInt64 = none ∧ P.points.size < P.points.maxEntries ∧
      (∃ m, OpenMap.Inserted P.points p.toUInt64 {} m ∧
        OpenMap.Modified m p.toUInt64 {} (inc {}) (P.anomalies p inc).points) ∧
      (P.anomalies p inc).overflow = P.overflow) ∨
    (P.points.find p.toUInt64 = none ∧ P.points.size = P.points.maxEntries ∧
      (P.anomalies p inc).points = P.points ∧ (P.anomalies p inc).overflow = inc P.overflow) := by
  cases hf : P.points.find p.toUInt64 with
  | some a =>
      left
      have hb : P.anomalies p inc = { P with points := P.points.modify p.toUInt64 inc } := by
        simp only [anomalies, hf]
      rw [hb]
      exact ⟨a, rfl, OpenMap.modify_present h inc hf, rfl⟩
  | none =>
      right
      by_cases hroom : P.points.size < P.points.maxEntries
      · left
        obtain ⟨hv, hins⟩ := OpenMap.insert_new (w := ({} : PointAnomalies)) h hf hroom
        have hb : P.anomalies p inc =
            { P with points := (P.points.insert p.toUInt64 {}).1.modify p.toUInt64 inc } := by
          cases hi : P.points.insert p.toUInt64 ({} : PointAnomalies) with
          | mk m o => rw [hi] at hv; cases hv; simp only [anomalies, hf, hi]
        rw [hb]
        refine ⟨rfl, hroom, ⟨_, hins, OpenMap.modify_present hins.wf inc ?_⟩, rfl⟩
        rw [hins.find, if_pos rfl]
      · right
        have hfull : P.points.size = P.points.maxEntries := by have := h.size_le; omega
        have hb : P.anomalies p inc = { P with overflow := inc P.overflow } := by
          simp only [anomalies, hf, OpenMap.insert_full h hf hfull]
        rw [hb]
        exact ⟨rfl, hfull, rfl, rfl⟩

variable {p inc}

theorem anomalies_points_wf (h : P.points.WF) : (P.anomalies p inc).points.WF := by
  rcases anomalies_cases p inc h with ⟨a, -, hm, -⟩ | ⟨-, -, ⟨m, -, hm⟩, -⟩ | ⟨-, -, he, -⟩
  · exact hm.wf
  · exact hm.wf
  · rw [he]; exact h

theorem anomalies_points_max (h : P.points.WF) :
    (P.anomalies p inc).points.maxEntries = P.points.maxEntries := by
  rcases anomalies_cases p inc h with ⟨a, -, hm, -⟩ | ⟨-, -, ⟨m, hi, hm⟩, -⟩ | ⟨-, -, he, -⟩
  · exact hm.maxEntries
  · rw [hm.maxEntries, hi.maxEntries]
  · rw [he]

theorem wf_anomalies (h : P.WF) (p : UInt32) (inc : PointAnomalies → PointAnomalies) :
    (P.anomalies p inc).WF where
  spans := by rw [anomalies_spans]; exact h.spans
  stages := by rw [anomalies_stages]; exact h.stages
  points := anomalies_points_wf h.points
  batch := by rw [anomalies_evictBatch]; exact h.batch

/-- A bump raises the tally of a counter by exactly what it adds to the counter. -/
theorem tally_anomalies (h : P.points.WF) {f : PointAnomalies → Nat} {d : Nat}
    (hinc : ∀ a, f (inc a) = f a + d) (h0 : f {} = 0) :
    tally f (P.anomalies p inc) = tally f P + d := by
  unfold tally
  rcases anomalies_cases p inc h with
    ⟨a, -, hm, ho⟩ | ⟨-, -, ⟨m, hi, hm⟩, ho⟩ | ⟨-, -, he, ho⟩
  · obtain ⟨rest, h1, h2⟩ := hm.entries
    rw [(h1.map _).sum_eq, (h2.map _).sum_eq, ho]
    simp only [List.map_cons, List.sum_cons, hinc]
    omega
  · obtain ⟨rest, h1, h2⟩ := hm.entries
    have h3 := (h1.map fun e => f e.2).sum_eq
    rw [(hi.entries.map _).sum_eq] at h3
    rw [(h2.map _).sum_eq, ho]
    simp only [List.map_cons, List.sum_cons, hinc, h0] at h3 ⊢
    omega
  · rw [he, ho, hinc]
    omega

/-- With room for the point, a bump changes the counters of that point alone. -/
theorem anomaliesOf_anomalies (inc : PointAnomalies → PointAnomalies) (h : P.points.WF)
    (hroom : (P.points.find p.toUInt64).isSome ∨ P.points.size < P.points.maxEntries) :
    (∀ q, (P.anomalies p inc).anomaliesOf q =
      if q = p then inc (P.anomaliesOf p) else P.anomaliesOf q) ∧
    (P.anomalies p inc).overflow = P.overflow := by
  have hkey : ∀ q : UInt32, q ≠ p → q.toUInt64 ≠ p.toUInt64 := fun q hq he => hq (toUInt64_inj he)
  rcases anomalies_cases p inc h with
    ⟨a, ha, hm, ho⟩ | ⟨hn, -, ⟨m, hi, hm⟩, ho⟩ | ⟨hn, hfull, -, -⟩
  · refine ⟨fun q => ?_, ho⟩
    simp only [anomaliesOf, hm.find]
    by_cases hq : q = p
    · subst hq; simp [ha]
    · simp [hq, hkey q hq]
  · refine ⟨fun q => ?_, ho⟩
    simp only [anomaliesOf, hm.find, hi.find]
    by_cases hq : q = p
    · subst hq; simp [hn]
    · simp [hq, hkey q hq]
  · rcases hroom with hs | hlt
    · rw [hn] at hs; cases hs
    · omega

/-- One count on the point `p`, or on the overflow bucket when the point table has no room for `p`. -/
def CountedOnce (P P' : Pairer A) (p : UInt32) (inc : PointAnomalies → PointAnomalies) : Prop :=
  (P'.overflow = P.overflow ∧
    ∀ q, P'.anomaliesOf q = if q = p then inc (P.anomaliesOf p) else P.anomaliesOf q) ∨
  (P.points.size = P.points.maxEntries ∧ P'.overflow = inc P.overflow ∧
    ∀ q, P'.anomaliesOf q = P.anomaliesOf q)

theorem countedOnce_anomalies {P' : Pairer A} (h : P.points.WF) (hp : P'.points = (P.anomalies p inc).points)
    (ho : P'.overflow = (P.anomalies p inc).overflow) : CountedOnce P P' p inc := by
  have hof : ∀ q, P'.anomaliesOf q = (P.anomalies p inc).anomaliesOf q := fun q => by
    rw [anomaliesOf, hp]; rfl
  rcases anomalies_cases p inc h with ⟨a, ha, -, -⟩ | ⟨-, hroom, -, -⟩ | ⟨-, hfull, hpts, hofl⟩
  · obtain ⟨hcnt, hofl⟩ := anomaliesOf_anomalies inc h (Or.inl (by rw [ha]; rfl))
    exact Or.inl ⟨by rw [ho, hofl], fun q => by rw [hof, hcnt]⟩
  · obtain ⟨hcnt, hofl⟩ := anomaliesOf_anomalies inc h (Or.inr hroom)
    exact Or.inl ⟨by rw [ho, hofl], fun q => by rw [hof, hcnt]⟩
  · exact Or.inr ⟨hfull, by rw [ho, hofl], fun q => by rw [hof, anomaliesOf, hpts]; rfl⟩

end Anomalies

/-! ## `record` -/

section Record

variable [Accum A]

/-- A sample of `v` on a stage is counted once: it is added to that stage alone, or the stage table is full
and the point is charged one `outOfRange`. -/
inductive RecordsOnce (P : Pairer A) (p : UInt32) (f t : UInt8) (v : UInt64) (P' : Pairer A) : Prop
  | added (g : Stage A)
      (hkey : g.point = p ∧ g.fromStep = f ∧ g.toStep = t)
      (hold : P.stages.find (stageKey p f t) = some g ∨
        P.stages.find (stageKey p f t) = none ∧ g = Stage.fresh p f t)
      (hnew : ∀ k, P'.stages.find k =
        if k = stageKey p f t then some (g.addSample v) else P.stages.find k)
      (hpoints : P'.points = P.points) (hoverflow : P'.overflow = P.overflow)
  | dropped
      (hnone : P.stages.find (stageKey p f t) = none)
      (hfull : P.stages.size = P.stages.maxEntries)
      (hstages : P'.stages = P.stages)
      (hpoints : P'.points = (P.anomalies p .incOutOfRange).points)
      (hoverflow : P'.overflow = (P.anomalies p .incOutOfRange).overflow)
      (hcounted : CountedOnce P P' p .incOutOfRange)

/-- Only the stages, the counters and the overflow bucket matter. -/
theorem RecordsOnce.frame {P P' Q : Pairer A} {p : UInt32} {f t : UInt8} {v : UInt64}
    (h : RecordsOnce P p f t v P') (hs : Q.stages = P'.stages) (hp : Q.points = P'.points)
    (ho : Q.overflow = P'.overflow) : RecordsOnce P p f t v Q := by
  rcases h with ⟨g, hkey, hold, hnew, hpts, hofl⟩ | ⟨hnone, hfull, hst, hpts, hofl, hcnt⟩
  · exact .added g hkey hold (by rw [hs]; exact hnew) (hp.trans hpts) (ho.trans hofl)
  · refine .dropped hnone hfull (hs.trans hst) (hp.trans hpts) (ho.trans hofl) ?_
    simpa only [CountedOnce, anomaliesOf, hp, ho] using hcnt

/-- Each stage sits under the key of its own fields. -/
def StagesKeyed (P : Pairer A) : Prop :=
  ∀ k g, P.stages.find k = some g → k = stageKey g.point g.fromStep g.toStep

section Frame

variable (P : Pairer A) (p : UInt32) (f t : UInt8) (v : UInt64) (n : UInt32)

@[simp] theorem record_spans : (P.record p f t v n).spans = P.spans := by
  simp only [record]; split <;> try split
  all_goals simp

@[simp] theorem record_overheadCycles : (P.record p f t v n).overheadCycles = P.overheadCycles := by
  simp only [record]; split <;> try split
  all_goals simp

@[simp] theorem record_evictQueue : (P.record p f t v n).evictQueue = P.evictQueue := by
  simp only [record]; split <;> try split
  all_goals simp

@[simp] theorem record_evictNext : (P.record p f t v n).evictNext = P.evictNext := by
  simp only [record]; split <;> try split
  all_goals simp

@[simp] theorem record_evictBatch : (P.record p f t v n).evictBatch = P.evictBatch := by
  simp only [record]; split <;> try split
  all_goals simp

end Frame

/-- What `record` leaves. -/
structure Recorded (P : Pairer A) (p : UInt32) (f t : UInt8) (v : UInt64) (P' : Pairer A) : Prop where
  wf : P'.stages.WF ∧ P'.points.WF
  maxStages : P'.stages.maxEntries = P.stages.maxEntries
  maxPoints : P'.points.maxEntries = P.points.maxEntries
  size : P'.stages.size = P.stages.size ∨
    P.stages.find (stageKey p f t) = none ∧ P'.stages.size = P.stages.size + 1
  keyed : P'.StagesKeyed
  once : RecordsOnce P p f t v P'

theorem record_spec {P : Pairer A} (h : P.WF) (hk : P.StagesKeyed) (p : UInt32) (f t : UInt8) (v : UInt64)
    (n : UInt32) : Recorded P p f t (P.netCycles v n) (P.record p f t v n) := by
  set c := P.netCycles v n with hc
  -- a stage that is written keeps its fields, so it stays under its key
  have hkeyed : ∀ (P' : Pairer A) (g : Stage A), g.point = p ∧ g.fromStep = f ∧ g.toStep = t →
      (∀ k, P'.stages.find k =
        if k = stageKey p f t then some (g.addSample c) else P.stages.find k) → P'.StagesKeyed := by
    rintro P' g ⟨rfl, rfl, rfl⟩ hnew k g' hg'
    rw [hnew] at hg'
    split at hg'
    · cases hg'; assumption
    · exact hk k g' hg'
  cases hf : P.stages.find (stageKey p f t) with
  | some g =>
      have hr : P.record p f t v n =
          { P with stages := P.stages.modify (stageKey p f t) fun g => g.addSample c } := by
        simp only [record, hf, hc]
      have hm := OpenMap.modify_present h.stages (fun g => g.addSample c) hf
      have hg : g.point = p ∧ g.fromStep = f ∧ g.toStep = t := by
        obtain ⟨h1, h2, h3⟩ := stageKey_inj (hk _ _ hf)
        exact ⟨h1.symm, h2.symm, h3.symm⟩
      rw [hr]
      exact ⟨⟨hm.wf, h.points⟩, hm.maxEntries, rfl, Or.inl hm.size, hkeyed _ g hg hm.find,
        .added g hg (Or.inl hf) hm.find rfl rfl⟩
  | none =>
      by_cases hroom : P.stages.size < P.stages.maxEntries
      · obtain ⟨hv, hins⟩ := OpenMap.insert_new (w := (Stage.fresh p f t : Stage A)) h.stages hf hroom
        have hr : P.record p f t v n =
            { P with
              stages := (P.stages.insert (stageKey p f t) (Stage.fresh p f t)).1.modify (stageKey p f t)
                fun g => g.addSample c } := by
          cases hi : P.stages.insert (stageKey p f t) (Stage.fresh p f t : Stage A) with
          | mk m o => rw [hi] at hv; cases hv; simp only [record, hf, hi, hc]
        have hm := OpenMap.modify_present hins.wf (fun g => g.addSample c)
          (by rw [hins.find, if_pos rfl] : _ = some (Stage.fresh p f t))
        have hfind : ∀ k, ((P.stages.insert (stageKey p f t) (Stage.fresh p f t)).1.modify
            (stageKey p f t) fun g => g.addSample c).find k =
            if k = stageKey p f t then some ((Stage.fresh p f t).addSample c) else P.stages.find k := by
          intro k
          rw [hm.find, hins.find]
          split <;> rfl
        rw [hr]
        exact ⟨⟨hm.wf, h.points⟩, by rw [hm.maxEntries, hins.maxEntries], rfl,
          Or.inr ⟨hf, by rw [hm.size, hins.size]⟩, hkeyed _ (Stage.fresh p f t) ⟨rfl, rfl, rfl⟩ hfind,
          .added (Stage.fresh p f t) ⟨rfl, rfl, rfl⟩ (Or.inr ⟨hf, rfl⟩) hfind rfl rfl⟩
      · have hfull : P.stages.size = P.stages.maxEntries := by have := h.stages.size_le; omega
        have hr : P.record p f t v n = P.anomalies p .incOutOfRange := by
          simp only [record, hf, OpenMap.insert_full h.stages hf hfull]
        rw [hr]
        exact ⟨⟨by rw [anomalies_stages]; exact h.stages, anomalies_points_wf h.points⟩,
          by rw [anomalies_stages], anomalies_points_max h.points, Or.inl (by rw [anomalies_stages]),
          by intro k g hg; rw [anomalies_stages] at hg; exact hk k g hg,
          .dropped hf hfull (anomalies_stages ..) rfl rfl
            (countedOnce_anomalies h.points rfl rfl)⟩

theorem wf_record {P : Pairer A} (h : P.WF) (hk : P.StagesKeyed) (p : UInt32) (f t : UInt8) (v : UInt64)
    (n : UInt32) : (P.record p f t v n).WF where
  spans := by rw [record_spans]; exact h.spans
  stages := (record_spec h hk p f t v n).wf.1
  points := (record_spec h hk p f t v n).wf.2
  batch := by rw [record_evictBatch]; exact h.batch

/-- A recorded sample moves no counter but `outOfRange`. -/
theorem tally_recordsOnce {P P' : Pairer A} (h : P.points.WF) {p : UInt32} {f t : UInt8} {v : UInt64}
    (hr : RecordsOnce P p f t v P') {c : PointAnomalies → Nat} {d : Nat}
    (hinc : ∀ a, c (PointAnomalies.incOutOfRange a) = c a + d) (h0 : c {} = 0) :
    tally c P' = tally c P ∨ P'.stages = P.stages ∧ tally c P' = tally c P + d := by
  rcases hr with ⟨g, -, -, -, hp, ho⟩ | ⟨-, -, hs, hp, ho, -⟩
  · left; unfold tally; rw [hp, ho]
  · right
    refine ⟨hs, ?_⟩
    have := tally_anomalies (p := p) h hinc h0
    unfold tally at this ⊢
    rw [hp, ho]
    exact this

end Record

end SlickPerfmon.Pairer
