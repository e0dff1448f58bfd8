import SlickPerfmon.Pairing.Lemmas.Events
import SlickPerfmon.Pairing.Machine
import SlickPerfmon.Stats.Accumulator

/-!
# The pairer refines its machines

As long as the tables have room, what `Pairer` stores after a run is what the machines of the single keys
hold: the open spans, the samples of the stages and the counters of the points.
-/

namespace SlickPerfmon

open Library Pairer

/-- A machine's span as the table stores it. -/
def Span.toOpenSpan (sp : Span) : OpenSpan :=
  ⟨sp.start, sp.last, sp.last, UInt32.ofNat sp.transitions, sp.lastStep⟩

/-- The table holds the open spans of `F` and nothing else. -/
structure SpansMatch (m : OpenMap OpenSpan) (F : UInt32 → UInt32 → Option Span) : Prop where
  find : ∀ p q, q.toNat < 2 ^ 24 → m.find (spanKey p q) = (F p q).map Span.toOpenSpan
  keys : ∀ k sp, m.find k = some sp → ∃ p q, q.toNat < 2 ^ 24 ∧ k = spanKey p q

section Stages

variable {A : Type} [Accum A]

/-- What the table stores for a stage to which `vs` was added: nothing, or the accumulator of its samples. -/
def StageHolds (p : UInt32) (f t : UInt8) (vs : Multiset UInt64) : Option (Stage A) → Prop
  | none => vs = 0
  | some g => vs ≠ 0 ∧ (g.point = p ∧ g.fromStep = f ∧ g.toStep = t) ∧ g.cumulative = Accum.empty ∧
      ∃ l : List UInt64, (l : Multiset UInt64) = vs ∧ g.interval = l.foldl Accum.add Accum.empty

/-- Each stage holds the samples `E` has for it. -/
structure StagesMatch (P : Pairer A) (E : UInt32 → UInt8 → UInt8 → Multiset UInt64) : Prop where
  keyed : P.StagesKeyed
  holds : ∀ p f t, StageHolds p f t (E p f t) (P.stages.find (stageKey p f t))

end Stages

/-- Each point has the counters of `C`, and none was folded into the overflow bucket. -/
structure PointsMatch {A : Type} (P : Pairer A) (C : UInt32 → PointAnomalies) : Prop where
  counters : ∀ p, P.anomaliesOf p = C p
  keys : ∀ k a, P.points.find k = some a → ∃ p : UInt32, k = p.toUInt64 ∧ a ≠ {}
  overflow : P.overflow = {}

/-! ## One table at a time -/

section Spans

variable {m m' : OpenMap OpenSpan} {F : UInt32 → UInt32 → Option Span} {p q : UInt32}

theorem SpansMatch.update (h : SpansMatch m F) (hq : q.toNat < 2 ^ 24) (o : Option Span)
    (hfind : ∀ k, m'.find k = if k = spanKey p q then o.map Span.toOpenSpan else m.find k) :
    SpansMatch m' fun p' q' => if p' = p ∧ q' = q then o else F p' q' where
  find p' q' hq' := by
    rw [hfind]
    by_cases hpq : p' = p ∧ q' = q
    · obtain ⟨rfl, rfl⟩ := hpq; simp
    · have hkey : spanKey p' q' ≠ spanKey p q := fun he => hpq (spanKey_inj hq' hq he)
      simp only [hkey, hpq, if_false]
      exact h.find p' q' hq'
  keys k sp hk := by
    rw [hfind] at hk
    split at hk
    · rename_i he; exact ⟨p, q, hq, he⟩
    · exact h.keys k sp hk

/-- A closed key among keys that fit finds room. -/
theorem SpansMatch.room (hw : m.WF) (h : SpansMatch m F) {S : Finset (UInt32 × UInt32)}
    (hS : S.card ≤ m.maxEntries) (hmem : (p, q) ∈ S) (hq : q.toNat < 2 ^ 24) (hclosed : F p q = none)
    (hF : ∀ p q, (F p q).isSome → (p, q) ∈ S) : m.size < m.maxEntries := by
  refine Nat.lt_of_lt_of_le (OpenMap.size_lt_card hw (fun k => spanKey k.1 k.2) hmem ?_ ?_) hS
  · rw [h.find p q hq, hclosed]; rfl
  · intro k sp hk
    obtain ⟨p', q', hq', rfl⟩ := h.keys k sp hk
    refine ⟨(p', q'), hF p' q' ?_, rfl⟩
    rw [h.find p' q' hq'] at hk
    cases hf : F p' q' with
    | none => rw [hf] at hk; cases hk
    | some _ => rfl

end Spans

section Record

variable {A : Type} [Accum A] {P : Pairer A} {E : UInt32 → UInt8 → UInt8 → Multiset UInt64}

theorem StageHolds.add {p : UInt32} {f t : UInt8} {vs : Multiset UInt64} {g : Stage A} (v : UInt64)
    (h : StageHolds p f t vs (some g) ∨ StageHolds (A := A) p f t vs none ∧ g = Stage.fresh p f t) :
    StageHolds p f t (vs + {v}) (some (g.addSample v)) := by
  have hne : vs + {v} ≠ 0 := fun h0 => by simpa using congrArg Multiset.card h0
  rcases h with ⟨-, hk, hc, l, hl, hi⟩ | ⟨hz, rfl⟩
  · refine ⟨hne, hk, hc, l ++ [v], by rw [← hl, ← Multiset.coe_add]; rfl, ?_⟩
    rw [List.foldl_append, ← hi]; rfl
  · have hz : vs = 0 := hz
    exact ⟨hne, ⟨rfl, rfl, rfl⟩, rfl, [v], by rw [hz, zero_add]; rfl, rfl⟩

/-- With room for its stage, `record` adds its sample to that stage and changes no counter. -/
theorem StagesMatch.record (hP : P.WF) (hov : P.overheadCycles = 0) (h : StagesMatch P E)
    {S : Finset (UInt32 × UInt8 × UInt8)} (hS : S.card ≤ P.stages.maxEntries) {p : UInt32} {f t : UInt8}
    (hmem : (p, f, t) ∈ S) (hE : ∀ p f t, E p f t ≠ 0 → (p, f, t) ∈ S) (v : UInt64) (n : UInt32) :
    StagesMatch (P.record p f t v n) (bump E p f t v) ∧ (P.record p f t v n).points = P.points ∧
      (P.record p f t v n).overflow = P.overflow := by
  have hnet : P.netCycles v n = v := by
    simp only [netCycles, hov, UInt64.zero_mul, UInt64.sub_zero]
    split
    · rfl
    · rename_i hv
      exact (UInt64.le_zero_iff.mp (UInt64.not_lt.mp hv)).symm
  have hrec := record_spec hP h.keyed p f t v n
  rw [hnet] at hrec
  rcases hrec.once with ⟨g, hg, hold, hnew, hpts, hofl⟩ | ⟨hnone, hfull, -, -, -, -⟩
  · refine ⟨⟨hrec.keyed, fun p' f' t' => ?_⟩, hpts, hofl⟩
    rw [hnew]
    by_cases he : p' = p ∧ f' = f ∧ t' = t
    · obtain ⟨rfl, rfl, rfl⟩ := he
      have hh := h.holds p' f' t'
      simp only [bump, and_self, if_true]
      refine StageHolds.add v ?_
      rcases hold with hold | ⟨hold, rfl⟩
      · rw [hold] at hh; exact Or.inl hh
      · rw [hold] at hh; exact Or.inr ⟨hh, rfl⟩
    · have hkey : stageKey p' f' t' ≠ stageKey p f t := fun hk => he (stageKey_inj hk)
      simp only [hkey, bump, he, if_false, add_zero]
      exact h.holds p' f' t'
  · have hlt : P.stages.size < S.card := by
      refine OpenMap.size_lt_card hP.stages (fun k : UInt32 × UInt8 × UInt8 => stageKey k.1 k.2.1 k.2.2)
        hmem hnone ?_
      intro k g hk
      have hkey := h.keyed k g hk
      have hh := h.holds g.point g.fromStep g.toStep
      rw [← hkey, hk] at hh
      exact ⟨(g.point, g.fromStep, g.toStep), hE _ _ _ hh.1, hkey⟩
    omega

/-- What a few samples recorded on one point leave. -/
structure RecordedAll (P : Pairer A) (E : UInt32 → UInt8 → UInt8 → Multiset UInt64) (P' : Pairer A) :
    Prop where
  wf : P'.WF
  stages : StagesMatch P' E
  points : P'.points = P.points
  overflow : P'.overflow = P.overflow
  spans : P'.spans = P.spans
  overhead : P'.overheadCycles = P.overheadCycles
  maxStages : P'.stages.maxEntries = P.stages.maxEntries

/-- With room for the stages they end up with, all of a point's records are added to their stages. -/
theorem StagesMatch.recordAll {S : Finset (UInt32 × UInt8 × UInt8)} (p : UInt32)
    (rs : List (Transition × UInt32)) (hP : P.WF) (hov : P.overheadCycles = 0) (h : StagesMatch P E)
    (hS : S.card ≤ P.stages.maxEntries)
    (hE : ∀ p' f t, bumpAll E p (rs.map Prod.fst) p' f t ≠ 0 → (p', f, t) ∈ S) :
    RecordedAll P (bumpAll E p (rs.map Prod.fst))
      (rs.foldl (fun P r => P.record p r.1.fromStep r.1.toStep r.1.cycles r.2) P) := by
  induction rs generalizing P E with
  | nil => exact ⟨hP, h, rfl, rfl, rfl, rfl, rfl⟩
  | cons r rs ih =>
      have hrec := record_spec hP h.keyed p r.1.fromStep r.1.toStep r.1.cycles r.2
      have hkept : ∀ p' f t, bump E p r.1.fromStep r.1.toStep r.1.cycles p' f t ≠ 0 → (p', f, t) ∈ S :=
        fun p' f t h0 => hE p' f t (bumpAll_ne_zero p (rs.map Prod.fst) h0)
      obtain ⟨hst, hpts, hofl⟩ := h.record hP hov hS (hkept _ _ _ (bump_self_ne_zero E _ _ _ r.1.cycles))
        (fun p' f t h0 => hkept p' f t (bump_ne_zero h0)) r.1.cycles r.2
      have hrest := ih (wf_record hP h.keyed ..) (by rw [record_overheadCycles]; exact hov) hst
        (by rw [hrec.maxStages]; exact hS) hE
      exact
        { wf := hrest.wf
          stages := hrest.stages
          points := hrest.points.trans hpts
          overflow := hrest.overflow.trans hofl
          spans := hrest.spans.trans (record_spans ..)
          overhead := hrest.overhead.trans (record_overheadCycles ..)
          maxStages := hrest.maxStages.trans hrec.maxStages }

end Record

section Points

variable {A : Type} {P : Pairer A} {C : UInt32 → PointAnomalies}

/-- With room for its point, a bump changes the counters of that point alone. -/
theorem PointsMatch.bump (hw : P.points.WF) (h : PointsMatch P C) {S : Finset UInt32}
    (hS : S.card ≤ P.points.maxEntries) {p : UInt32} (hmem : p ∈ S) (hC : ∀ p, C p ≠ {} → p ∈ S)
    {inc : PointAnomalies → PointAnomalies} (hinc : ∀ a, inc a ≠ {}) :
    PointsMatch (P.anomalies p inc) fun q => if q = p then inc (C p) else C q := by
  have hval : ∀ q a, P.points.find q.toUInt64 = some a → C q = a := fun q a ha => by
    rw [← h.counters q, anomaliesOf, ha]; rfl
  have hroom : (P.points.find p.toUInt64).isSome ∨ P.points.size < P.points.maxEntries := by
    cases hf : P.points.find p.toUInt64 with
    | some _ => exact Or.inl rfl
    | none =>
        right
        refine Nat.lt_of_lt_of_le (OpenMap.size_lt_card hw UInt32.toUInt64 hmem hf ?_) hS
        intro k a hk
        obtain ⟨q, rfl, ha⟩ := h.keys k a hk
        exact ⟨q, hC q (by rw [hval q a hk]; exact ha), rfl⟩
  obtain ⟨hcnt, hofl⟩ := anomaliesOf_anomalies inc hw hroom
  refine ⟨fun q => by rw [hcnt, h.counters, h.counters], fun k a hk => ?_, by rw [hofl]; exact h.overflow⟩
  rcases anomalies_cases p inc hw with
    ⟨b, -, hm, -⟩ | ⟨-, -, ⟨m, hi, hm⟩, -⟩ | ⟨-, -, he, -⟩
  · rw [hm.find] at hk
    split at hk
    · rename_i hkp; cases hk; exact ⟨p, hkp, hinc b⟩
    · exact h.keys k a hk
  · rw [hm.find] at hk
    split at hk
    · rename_i hkp; cases hk; exact ⟨p, hkp, hinc _⟩
    · rename_i hkp
      rw [hi.find, if_neg hkp] at hk
      exact h.keys k a hk
  · rw [he] at hk; exact h.keys k a hk

end Points

theorem StagesMatch.frame {A : Type} [Accum A] {P P' : Pairer A}
    {E : UInt32 → UInt8 → UInt8 → Multiset UInt64} (h : StagesMatch P E) (he : P'.stages = P.stages) :
    StagesMatch P' E where
  keyed k g hk := by rw [he] at hk; exact h.keyed k g hk
  holds p f t := by rw [he]; exact h.holds p f t

theorem PointsMatch.frame {A : Type} {P P' : Pairer A} {C : UInt32 → PointAnomalies} (h : PointsMatch P C)
    (hp : P'.points = P.points) (ho : P'.overflow = P.overflow) : PointsMatch P' C where
  counters p := by rw [anomaliesOf, hp]; exact h.counters p
  keys k a hk := by rw [hp] at hk; exact h.keys k a hk
  overflow := by rw [ho]; exact h.overflow

/-! ## One event -/

section Refines

variable {A : Type} [Accum A] (H : HeapLib) {cfg : Config} {ss : List Sample} {P : Pairer A}

/-- The state after a run, told by the machines of its keys. -/
structure Refines (cfg : Config) (ss : List Sample) (P : Pairer A) : Prop where
  wf : P.WF
  overhead : P.overheadCycles = 0
  maxSpans : P.spans.maxEntries = max 1 cfg.maxOpenSpans.toNat
  maxStages : P.stages.maxEntries = max 1 cfg.maxStages.toNat
  maxPoints : P.points.maxEntries = max 1 cfg.maxStages.toNat
  spans : SpansMatch P.spans fun p q => (machineAt p q ss).span
  stages : StagesMatch P (stageSamples ss)
  points : PointsMatch P (pointCounters ss)

theorem span_append {s : Sample} (hs : s.isStamp = true) (ss : List Sample) :
    (fun p q => (machineAt p q (ss ++ [s])).span) = fun p q =>
      if p = s.point ∧ q = s.seq then ((machineAt s.point s.seq ss).step s).span
      else (machineAt p q ss).span := by
  funext p q
  rw [machineAt_append]
  by_cases hpq : p = s.point ∧ q = s.seq
  · obtain ⟨rfl, rfl⟩ := hpq
    simp [isOf_iff, hs]
  · have hn : s.isOf p q ≠ true := fun h => hpq ⟨(isOf_iff.mp h).2.1.symm, (isOf_iff.mp h).2.2.symm⟩
    simp only [hn, hpq, if_false]
    rfl

theorem refines_reset (cfg : Config) : Refines cfg [] (reset cfg : Pairer A) where
  wf := wf_reset cfg
  overhead := rfl
  maxSpans := OpenMap.maxEntries_reset _
  maxStages := OpenMap.maxEntries_reset _
  maxPoints := OpenMap.maxEntries_reset _
  spans :=
    { find := fun p q _ => OpenMap.find_reset _ _
      keys := fun k sp hk => by rw [show (reset cfg : Pairer A).spans.find k = none from
        OpenMap.find_reset _ _] at hk; cases hk }
  stages :=
    { keyed := fun k g hk => by rw [show (reset cfg : Pairer A).stages.find k = none from
        OpenMap.find_reset _ _] at hk; cases hk
      holds := fun p f t => by
        rw [show (reset cfg : Pairer A).stages.find (stageKey p f t) = none from OpenMap.find_reset _ _]
        simp [StageHolds, stageSamples, machineAt, Machine.recordsOf, valuesAt] }
  points :=
    { counters := fun p => by
        rw [anomaliesOf, show (reset cfg : Pairer A).points.find p.toUInt64 = none from
          OpenMap.find_reset _ _]
        simp [pointCounters, machineAt]
      keys := fun k a hk => by rw [show (reset cfg : Pairer A).points.find k = none from
        OpenMap.find_reset _ _] at hk; cases hk
      overflow := rfl }

/-- The room that one more sample needs. -/
structure Room (cfg : Config) (ss : List Sample) : Prop where
  spans : (openKeys ss).card ≤ max 1 cfg.maxOpenSpans.toNat
  stages : (stagesOf ss).card ≤ max 1 cfg.maxStages.toNat
  points : (anomalyPoints ss).card ≤ max 1 cfg.maxStages.toNat

namespace Refines

theorem value (h : Refines cfg ss P) {s : Sample} (hv : s.isStamp = false)
    (hroom : Room cfg (ss ++ [s])) : Refines cfg (ss ++ [s]) (P.onEvent H s) := by
  have hsp : ∀ p q, machineAt p q (ss ++ [s]) = machineAt p q ss :=
    fun p q => machineAt_append_of_not (not_isOf_of_value hv p q) ss
  have hst := stageSamples_value hv ss
  have hgrow : ∀ p f t, stageSamples ss p f t ≠ 0 → (p, f, t) ∈ stagesOf (ss ++ [s]) := by
    intro p f t hne
    refine mem_stagesOf_of_samples ?_
    rw [hst]
    exact bump_ne_zero hne
  have hmem : (s.point, kValueStep, kValueStep) ∈ stagesOf (ss ++ [s]) :=
    mem_stagesOf.mpr (Or.inr ⟨rfl, rfl, s, List.mem_append_right _ (List.mem_singleton_self _), hv, rfl⟩)
  obtain ⟨hstages, hpoints, hoverflow⟩ := h.stages.record h.wf h.overhead
    (h.maxStages ▸ hroom.stages) hmem hgrow s.timestamp 0
  have hrec := record_spec h.wf h.stages.keyed s.point kValueStep kValueStep s.timestamp 0
  rw [onEvent_value H hv]
  exact
    { wf := wf_record h.wf h.stages.keyed ..
      overhead := by rw [record_overheadCycles]; exact h.overhead
      maxSpans := by rw [record_spans]; exact h.maxSpans
      maxStages := by rw [hrec.maxStages]; exact h.maxStages
      maxPoints := by rw [hpoints]; exact h.maxPoints
      spans := by simpa only [record_spans, hsp] using h.spans
      stages := by rw [hst]; exact hstages
      points := by rw [pointCounters_value hv]; exact h.points.frame hpoints hoverflow }

/-- A bump of the stamp's own point follows the bump of its own machine. -/
theorem points_bump (h : Refines cfg ss P) {s : Sample} (hs : s.isStamp = true)
    (hroom : Room cfg (ss ++ [s])) {i a o : Nat} (hpos : 0 < i + a + o)
    (hi : ((machineAt s.point s.seq ss).step s).invalid = (machineAt s.point s.seq ss).invalid + i)
    (ha : ((machineAt s.point s.seq ss).step s).abandoned = (machineAt s.point s.seq ss).abandoned + a)
    (ho : ((machineAt s.point s.seq ss).step s).orphan = (machineAt s.point s.seq ss).orphan + o)
    (inc : PointAnomalies → PointAnomalies)
    (hinc : ∀ x, inc x =
      { x with invalid := x.invalid + i, abandoned := x.abandoned + a, orphan := x.orphan + o }) :
    PointsMatch (P.anomalies s.point inc) (pointCounters (ss ++ [s])) := by
  have hne : ∀ x, inc x ≠ {} := by
    intro x h0
    rw [hinc] at h0
    injection h0
    omega
  have hC : pointCounters (ss ++ [s]) =
      fun q => if q = s.point then inc (pointCounters ss s.point) else pointCounters ss q := by
    funext q
    rw [pointCounters_stamp hs hi ha ho]
    by_cases hq : q = s.point
    · subst hq; simp only [if_true, hinc]
    · simp only [hq, if_false]
  have hmem : s.point ∈ anomalyPoints (ss ++ [s]) := by
    refine mem_anomalyPoints_of_counters ?_
    rw [hC]
    simp only [if_true]
    exact hne _
  rw [hC]
  refine h.points.bump h.wf.points (h.maxPoints ▸ hroom.points) hmem (fun q hq => ?_) hne
  refine mem_anomalyPoints_of_counters ?_
  rw [hC]
  by_cases hqp : q = s.point
  · simp only [hqp, if_true]; exact hne _
  · simp only [hqp, if_false]; exact hq

/-- The span stored for a stamp's key. -/
theorem find_key (h : Refines cfg ss P) (s : Sample) :
    P.spans.find s.key = (machineAt s.point s.seq ss).span.map Span.toOpenSpan :=
  h.spans.find s.point s.seq s.seq_lt

/-- A table that differs at the stamp's key only, where it has the span of the stamp's machine. -/
theorem spans_stamp (h : Refines cfg ss P) {s : Sample} (hs : s.isStamp = true) {m' : OpenMap OpenSpan}
    (hfind : ∀ k, m'.find k = if k = s.key then
      ((machineAt s.point s.seq ss).step s).span.map Span.toOpenSpan else P.spans.find k) :
    SpansMatch m' fun p q => (machineAt p q (ss ++ [s])).span := by
  rw [span_append hs]
  exact h.spans.update s.seq_lt _ hfind

theorem orphan (h : Refines cfg ss P) {s : Sample} (hs : s.isStamp = true) (hb : s.step ≠ kBeginStep)
    (hclosed : (machineAt s.point s.seq ss).span = none) (hroom : Room cfg (ss ++ [s])) :
    Refines cfg (ss ++ [s]) (P.onEvent H s) := by
  have hf : P.spans.find s.key = none := by rw [h.find_key, hclosed]; rfl
  have hm : (machineAt s.point s.seq ss).step s =
      { machineAt s.point s.seq ss with orphan := (machineAt s.point s.seq ss).orphan + 1 } := by
    simp only [Machine.step, hclosed, hb, if_false]
  have hst := stageSamples_stamp hs [] (by rw [hm, List.append_nil])
  have hpts := h.points_bump hs hroom (i := 0) (a := 0) (o := 1) (by omega) (by rw [hm]; rfl)
    (by rw [hm]; rfl) (by rw [hm]) .incOrphan fun _ => rfl
  rw [onEvent_orphan H hs hb hf]
  exact
    { wf := wf_anomalies h.wf ..
      overhead := by rw [anomalies_overheadCycles]; exact h.overhead
      maxSpans := by rw [anomalies_spans]; exact h.maxSpans
      maxStages := by rw [anomalies_stages]; exact h.maxStages
      maxPoints := by rw [anomalies_points_max h.wf.points]; exact h.maxPoints
      spans := h.spans_stamp hs fun k => by
        rw [anomalies_spans]
        split
        · rename_i hk; rw [hk, hf, hm, hclosed]; rfl
        · rfl
      stages := by rw [hst]; exact h.stages.frame (anomalies_stages ..)
      points := hpts }

theorem backwards (h : Refines cfg ss P) {s : Sample} {sp : Span} (hs : s.isStamp = true)
    (hb : s.step ≠ kBeginStep) (hopen : (machineAt s.point s.seq ss).span = some sp)
    (hlt : s.timestamp < sp.last) (hroom : Room cfg (ss ++ [s])) :
    Refines cfg (ss ++ [s]) (P.onEvent H s) := by
  have hf : P.spans.find s.key = some sp.toOpenSpan := by rw [h.find_key, hopen]; rfl
  have hm : (machineAt s.point s.seq ss).step s =
      { machineAt s.point s.seq ss with
        span := none, invalid := (machineAt s.point s.seq ss).invalid + 1 } := by
    simp only [Machine.step, hopen, hb, if_false, hlt, if_true]
  have hst := stageSamples_stamp hs [] (by rw [hm, List.append_nil])
  have hpts := h.points_bump hs hroom (i := 1) (a := 0) (o := 0) (by omega) (by rw [hm])
    (by rw [hm]; rfl) (by rw [hm]; rfl) .incInvalid fun _ => rfl
  obtain ⟨-, hrem⟩ := OpenMap.erase_present h.wf.spans hf
  rw [onEvent_backwards H hs hb hf hlt]
  exact
    { wf := ⟨hrem.wf, (wf_anomalies h.wf _ _).stages, (wf_anomalies h.wf _ _).points, (wf_anomalies h.wf _ _).batch⟩
      overhead := (anomalies_overheadCycles ..).trans h.overhead
      maxSpans := hrem.maxEntries.trans h.maxSpans
      maxStages := (congrArg OpenMap.maxEntries (anomalies_stages ..)).trans h.maxStages
      maxPoints := (anomalies_points_max h.wf.points).trans h.maxPoints
      spans := h.spans_stamp hs fun k => by
        simp only [hrem.find, hm]
        rfl
      stages := by rw [hst]; exact h.stages.frame (anomalies_stages ..)
      points := hpts.frame rfl rfl }

theorem beginOpen (h : Refines cfg ss P) {s : Sample} {sp : Span} (hs : s.isStamp = true)
    (hb : s.step = kBeginStep) (hopen : (machineAt s.point s.seq ss).span = some sp)
    (hroom : Room cfg (ss ++ [s])) : Refines cfg (ss ++ [s]) (P.onEvent H s) := by
  have hf : P.spans.find s.key = some sp.toOpenSpan := by rw [h.find_key, hopen]; rfl
  have hm : (machineAt s.point s.seq ss).step s =
      { machineAt s.point s.seq ss with
        span := some ⟨s.timestamp, s.timestamp, kBeginStep, 0⟩
        abandoned := (machineAt s.point s.seq ss).abandoned + 1 } := by
    simp only [Machine.step, hopen, hb, if_true]
  have hst := stageSamples_stamp hs [] (by rw [hm, List.append_nil])
  have hpts := h.points_bump hs hroom (i := 0) (a := 1) (o := 0) (by omega) (by rw [hm]; rfl)
    (by rw [hm]) (by rw [hm]; rfl) .incAbandoned fun _ => rfl
  have hmod := OpenMap.modify_present h.wf.spans (fun _ => freshSpan s) hf
  rw [onEvent_begin H hb, openBegin_open H hf]
  exact
    { wf := ⟨hmod.wf, (wf_anomalies h.wf _ _).stages, (wf_anomalies h.wf _ _).points, (wf_anomalies h.wf _ _).batch⟩
      overhead := (anomalies_overheadCycles ..).trans h.overhead
      maxSpans := hmod.maxEntries.trans h.maxSpans
      maxStages := (congrArg OpenMap.maxEntries (anomalies_stages ..)).trans h.maxStages
      maxPoints := (anomalies_points_max h.wf.points).trans h.maxPoints
      spans := h.spans_stamp hs fun k => by
        simp only [hmod.find, hm]
        rfl
      stages := by rw [hst]; exact h.stages.frame (anomalies_stages ..)
      points := hpts.frame rfl rfl }

theorem beginClosed (h : Refines cfg ss P) {s : Sample} (hs : s.isStamp = true) (hb : s.step = kBeginStep)
    (hclosed : (machineAt s.point s.seq ss).span = none) (hroom : Room cfg (ss ++ [s])) :
    Refines cfg (ss ++ [s]) (P.onEvent H s) := by
  have hf : P.spans.find s.key = none := by rw [h.find_key, hclosed]; rfl
  have hm : (machineAt s.point s.seq ss).step s =
      { machineAt s.point s.seq ss with span := some ⟨s.timestamp, s.timestamp, kBeginStep, 0⟩ } := by
    simp only [Machine.step, hclosed, hb, if_true]
  have hst := stageSamples_stamp hs [] (by rw [hm, List.append_nil])
  have hcnt : pointCounters (ss ++ [s]) = pointCounters ss := by
    funext p
    rw [pointCounters_stamp hs (i := 0) (a := 0) (o := 0) (by rw [hm]; rfl) (by rw [hm]; rfl) (by rw [hm]; rfl)]
    simp
  -- the begun key is one of the keys that fit, and closed before
  have hspans : (machineAt s.point s.seq (ss ++ [s])).span.isSome := by
    rw [machineAt_append, if_pos (isOf_iff.mpr ⟨hs, rfl, rfl⟩), hm]; rfl
  have hkept : ∀ p q, ((machineAt p q ss).span).isSome → (p, q) ∈ openKeys (ss ++ [s]) := by
    intro p q hpq
    rw [mem_openKeys, machineAt_append]
    split
    · rw [isOf_iff] at *
      rename_i ho
      obtain ⟨-, rfl, rfl⟩ := ho
      rw [hm]; rfl
    · exact hpq
  have hlt := h.spans.room h.wf.spans (h.maxSpans ▸ hroom.spans) (mem_openKeys.mpr hspans) s.seq_lt hclosed
    hkept
  obtain ⟨spans, peak, hins, heq⟩ := openBegin_room H h.wf.spans hf hlt
  rw [onEvent_begin H hb, heq]
  exact
    { wf := ⟨hins.wf, h.wf.stages, h.wf.points, h.wf.batch⟩
      overhead := h.overhead
      maxSpans := hins.maxEntries.trans h.maxSpans
      maxStages := h.maxStages
      maxPoints := h.maxPoints
      spans := h.spans_stamp hs fun k => by
        simp only [hins.find, hm]
        rfl
      stages := by rw [hst]; exact h.stages.frame rfl
      points := by rw [hcnt]; exact h.points.frame rfl rfl }

/-- What the machine of a stamp records is recorded on its stages. -/
theorem records (h : Refines cfg ss P) {s : Sample} (hs : s.isStamp = true) (hroom : Room cfg (ss ++ [s]))
    (rs : List (Transition × UInt32))
    (hrs : ((machineAt s.point s.seq ss).step s).records =
      (machineAt s.point s.seq ss).records ++ rs.map Prod.fst) :
    RecordedAll P (stageSamples (ss ++ [s]))
      (rs.foldl (fun P r => P.record s.point r.1.fromStep r.1.toStep r.1.cycles r.2) P) := by
  have hst := stageSamples_stamp hs _ hrs
  rw [hst]
  refine h.stages.recordAll s.point rs h.wf h.overhead (h.maxStages ▸ hroom.stages) fun p f t h0 => ?_
  rw [← hst] at h0
  exact mem_stagesOf_of_samples h0

/-- The fields of the state once the span table is replaced after recording. -/
theorem afterRecords (h : Refines cfg ss P) {s : Sample} (hs : s.isStamp = true) {P' : Pairer A}
    {m' : OpenMap OpenSpan} (hrec : RecordedAll P (stageSamples (ss ++ [s])) P') (hw : m'.WF)
    (hmax : m'.maxEntries = P.spans.maxEntries)
    (hfind : ∀ k, m'.find k = if k = s.key then
      ((machineAt s.point s.seq ss).step s).span.map Span.toOpenSpan else P.spans.find k)
    (hcnt : ((machineAt s.point s.seq ss).step s).invalid = (machineAt s.point s.seq ss).invalid ∧
      ((machineAt s.point s.seq ss).step s).abandoned = (machineAt s.point s.seq ss).abandoned ∧
      ((machineAt s.point s.seq ss).step s).orphan = (machineAt s.point s.seq ss).orphan) :
    Refines cfg (ss ++ [s]) { P' with spans := m' } := by
  have hsame : pointCounters (ss ++ [s]) = pointCounters ss := by
    funext p
    rw [pointCounters_stamp hs (i := 0) (a := 0) (o := 0) hcnt.1 hcnt.2.1 hcnt.2.2]
    simp
  exact
    { wf := ⟨hw, hrec.wf.stages, hrec.wf.points, hrec.wf.batch⟩
      overhead := hrec.overhead.trans h.overhead
      maxSpans := hmax.trans h.maxSpans
      maxStages := hrec.maxStages.trans h.maxStages
      maxPoints := (congrArg OpenMap.maxEntries hrec.points).trans h.maxPoints
      spans := h.spans_stamp hs hfind
      stages := hrec.stages.frame rfl
      points := by rw [hsame]; exact h.points.frame hrec.points hrec.overflow }

theorem step (h : Refines cfg ss P) {s : Sample} {sp : Span} (hs : s.isStamp = true)
    (hb : s.step ≠ kBeginStep) (he : s.step ≠ kEndStep)
    (hopen : (machineAt s.point s.seq ss).span = some sp) (hle : ¬ s.timestamp < sp.last)
    (hroom : Room cfg (ss ++ [s])) : Refines cfg (ss ++ [s]) (P.onEvent H s) := by
  have hf : P.spans.find s.key = some sp.toOpenSpan := by rw [h.find_key, hopen]; rfl
  have hm : (machineAt s.point s.seq ss).step s =
      { machineAt s.point s.seq ss with
        span := some ⟨sp.start, s.timestamp, s.step, sp.transitions + 1⟩
        records := (machineAt s.point s.seq ss).records ++
          [⟨sp.lastStep, s.step, s.timestamp - sp.last⟩] } := by
    simp only [Machine.step, hopen, hb, he, hle, if_false]
  have hrec := h.records hs hroom [(⟨sp.lastStep, s.step, s.timestamp - sp.last⟩, 1)] (by rw [hm]; rfl)
  have hmod := OpenMap.modify_present h.wf.spans (fun sp : OpenSpan =>
    { sp with
      lastTsc := s.timestamp, seenTsc := s.timestamp, lastStep := s.step,
      transitions := sp.transitions + 1 }) hf
  rw [onEvent_step H hs hb he hf hle]
  refine h.afterRecords hs hrec hmod.wf hmod.maxEntries (fun k => ?_) (by rw [hm]; exact ⟨rfl, rfl, rfl⟩)
  rw [hmod.find, hm]
  simp [Span.toOpenSpan, UInt32.ofNat_add]

theorem «end» (h : Refines cfg ss P) {s : Sample} {sp : Span} (hs : s.isStamp = true)
    (he : s.step = kEndStep) (hopen : (machineAt s.point s.seq ss).span = some sp)
    (hle : ¬ s.timestamp < sp.last) (hroom : Room cfg (ss ++ [s])) :
    Refines cfg (ss ++ [s]) (P.onEvent H s) := by
  have hb : kEndStep ≠ kBeginStep := by decide
  have hf : P.spans.find s.key = some sp.toOpenSpan := by rw [h.find_key, hopen]; rfl
  have hm : (machineAt s.point s.seq ss).step s =
      { machineAt s.point s.seq ss with
        span := none
        records := (machineAt s.point s.seq ss).records ++ Machine.closing sp s.timestamp } := by
    simp only [Machine.step, hopen, he, hb, hle, if_false, if_true]
  obtain ⟨-, hrem⟩ := OpenMap.erase_present h.wf.spans hf
  have htr := machineAt_transitions hopen
  rw [onEvent_end H he hf hle]
  have hafter := fun {P' : Pairer A} (hrec : RecordedAll P (stageSamples (ss ++ [s])) P') =>
    h.afterRecords hs hrec hrem.wf hrem.maxEntries
      (fun k => by rw [hrem.find, hm]; rfl) (by rw [hm]; exact ⟨rfl, rfl, rfl⟩)
  -- no step since the begin: the total alone
  by_cases h0 : sp.transitions = 0
  · have hl : sp.toOpenSpan.lastStep = kBeginStep := htr.mp h0
    simp only [hl, ne_eq, not_true, if_false]
    exact hafter (h.records hs hroom
      [(⟨kBeginStep, kBeginStep, s.timestamp - sp.start⟩, sp.toOpenSpan.transitions + 1)]
      (by rw [hm]; simp [Machine.closing, h0]))
  · have hl : sp.toOpenSpan.lastStep ≠ kBeginStep := fun hl => h0 (htr.mpr hl)
    simp only [ne_eq, hl, not_false_eq_true, if_true]
    exact hafter (h.records hs hroom
      [(⟨sp.lastStep, kEndStep, s.timestamp - sp.last⟩, 1),
        (⟨kBeginStep, kBeginStep, s.timestamp - sp.start⟩, sp.toOpenSpan.transitions + 1)]
      (by rw [hm]; simp [Machine.closing, h0]))

/-- Every event keeps the refinement. -/
theorem onEvent (h : Refines cfg ss P) (s : Sample) (hroom : Room cfg (ss ++ [s])) :
    Refines cfg (ss ++ [s]) (P.onEvent H s) := by
  cases hs : s.isStamp with
  | false => exact h.value H hs hroom
  | true =>
      cases hopen : (machineAt s.point s.seq ss).span with
      | none =>
          by_cases hb : s.step = kBeginStep
          · exact h.beginClosed H hs hb hopen hroom
          · exact h.orphan H hs hb hopen hroom
      | some sp =>
          by_cases hb : s.step = kBeginStep
          · exact h.beginOpen H hs hb hopen hroom
          · by_cases hlt : s.timestamp < sp.last
            · exact h.backwards H hs hb hopen hlt hroom
            · by_cases he : s.step = kEndStep
              · exact h.«end» H hs he hopen hlt hroom
              · exact h.step H hs hb he hopen hlt hroom

/-- Every run that fits keeps the refinement. -/
theorem run (cfg : Config) (ss : List Sample) (hfits : Fits cfg ss) :
    Refines cfg ss (ss.foldl (fun P s => P.onEvent H s) (reset cfg : Pairer A)) := by
  induction ss using List.reverseRecOn with
  | nil => exact refines_reset cfg
  | append_singleton ss s ih =>
      have hprefix : Fits cfg ss := fun pre hpre =>
        hfits pre ((List.mem_inits _ _).mpr (((List.mem_inits _ _).mp hpre).trans (List.prefix_append ss [s])))
      have hroom : Room cfg (ss ++ [s]) :=
        have h := hfits (ss ++ [s]) ((List.mem_inits _ _).mpr (List.prefix_refl _))
        ⟨h.1, h.2.1, h.2.2⟩
      rw [List.foldl_append]
      exact (ih hprefix).onEvent H s hroom

end Refines

/-- After any run whose keys, stages and anomalous points fit the tables, the pairer stores what the machines
of the single keys hold: their open spans and no other, their samples stage by stage, and their counters point
by point. -/
theorem pairer_refines_machines (cfg : Config) (ss : List Sample) (hfits : Fits cfg ss) :
    let P : Pairer A := ss.foldl (fun P s => P.onEvent H s) (reset cfg)
    (∀ p q, q.toNat < 2 ^ 24 →
      P.spans.find (spanKey p q) = (machineAt p q ss).span.map Span.toOpenSpan) ∧
    (∀ k sp, P.spans.find k = some sp → ∃ p q, q.toNat < 2 ^ 24 ∧ k = spanKey p q) ∧
    (∀ p f t, StageHolds p f t (stageSamples ss p f t) (P.stages.find (stageKey p f t))) ∧
    (∀ k g, P.stages.find k = some g → k = stageKey g.point g.fromStep g.toStep) ∧
    (∀ p, P.anomaliesOf p = pointCounters ss p) ∧ P.overflow = {} := by
  have h := Refines.run H (A := A) cfg ss hfits
  exact ⟨h.spans.find, h.spans.keys, h.stages.holds, h.stages.keyed, h.points.counters, h.points.overflow⟩

end Refines

/-- Two spans of one point and a stray end of another, in tables of two spans and four stages. -/
def sampleRun : List Sample :=
  [⟨10, 1, makeEvent kBeginStep 5⟩, ⟨11, 1, makeEvent kBeginStep 6⟩, ⟨15, 1, makeEvent 3 5⟩,
    ⟨20, 1, makeEvent kEndStep 6⟩, ⟨21, 1, makeEvent kEndStep 5⟩, ⟨22, 2, makeEvent kEndStep 5⟩,
    ⟨22, 1, makeEvent kValueStep 0⟩, ⟨23, 1, makeEvent kBeginStep 6⟩]

theorem pairer_refines_machines_sampleRun :
    let cfg : Config := ⟨2, 4⟩
    let P : Pairer (Accumulator 4) := sampleRun.foldl (fun P s => P.onEvent sortingLib s) (reset cfg)
    Fits cfg sampleRun ∧ P.spans.find (spanKey 1 6) = some ⟨23, 23, 23, 0, kBeginStep⟩ ∧
      P.spans.find (spanKey 1 5) = none ∧ P.anomaliesOf 2 = pointCounters sampleRun 2 := by
  have h := pairer_refines_machines (A := Accumulator 4) sortingLib ⟨2, 4⟩ sampleRun (by decide)
  obtain ⟨hspans, -, -, -, hcounters, -⟩ := h
  refine ⟨by decide, (hspans 1 6 (by decide)).trans ?_, (hspans 1 5 (by decide)).trans ?_, hcounters 2⟩
  · decide
  · decide

end SlickPerfmon
