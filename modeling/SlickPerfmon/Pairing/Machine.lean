import SlickPerfmon.Pairing.Pairer
import Mathlib.Algebra.BigOperators.Group.Finset.Piecewise
import Mathlib.Data.List.Infix

/-!
# The machine of one span key

What pairing is for, stated without tables: each (point, seq) has its own machine, which sees only its own
stamps. `machineAt` folds a key's own subsequence of a run; `stageSamples` and `pointCounters` add up what
the machines of one point recorded and counted.
-/

namespace SlickPerfmon

/-- An open span as one key sees it. -/
structure Span where
  start : UInt64
  last : UInt64
  lastStep : UInt8
  transitions : Nat
deriving DecidableEq, Repr

/-- A sample one key contributes to the stage from `fromStep` to `toStep` of its point. -/
structure Transition where
  fromStep : UInt8
  toStep : UInt8
  cycles : UInt64
deriving DecidableEq, Repr

structure Machine where
  span : Option Span := none
  orphan : Nat := 0
  invalid : Nat := 0
  abandoned : Nat := 0
  records : List Transition := []
deriving DecidableEq, Repr

namespace Machine

/-- The total of a span, and before it the last transition unless the span had no step. -/
def closing (sp : Span) (ts : UInt64) : List Transition :=
  (if sp.transitions = 0 then [] else [⟨sp.lastStep, kEndStep, ts - sp.last⟩]) ++
    [⟨kBeginStep, kBeginStep, ts - sp.start⟩]

def step (m : Machine) (s : Sample) : Machine :=
  match m.span with
  | none =>
      if s.step = kBeginStep then { m with span := some ⟨s.timestamp, s.timestamp, kBeginStep, 0⟩ }
      else { m with orphan := m.orphan + 1 }
  | some sp =>
      if s.step = kBeginStep then
        { m with
          span := some ⟨s.timestamp, s.timestamp, kBeginStep, 0⟩, abandoned := m.abandoned + 1 }
      else if s.timestamp < sp.last then { m with span := none, invalid := m.invalid + 1 }
      else if s.step = kEndStep then
        { m with span := none, records := m.records ++ closing sp s.timestamp }
      else
        { m with
          span := some ⟨sp.start, s.timestamp, s.step, sp.transitions + 1⟩
          records := m.records ++ [⟨sp.lastStep, s.step, s.timestamp - sp.last⟩] }

/-- The samples recorded from `f` to `t`. -/
def recordsOf (m : Machine) (f t : UInt8) : List UInt64 :=
  (m.records.filter fun r => r.fromStep = f ∧ r.toStep = t).map Transition.cycles

/-- Whether the key has counted anything. -/
def anomalous (m : Machine) : Bool := m.orphan != 0 || m.invalid != 0 || m.abandoned != 0

end Machine

/-! ## A run, key by key -/

/-- Whether a sample is a stamp of the key (p, q). -/
def Sample.isOf (s : Sample) (p q : UInt32) : Bool := s.isStamp && s.point == p && s.seq == q

/-- The machine of (p, q) after its own stamps among `ss`. -/
def machineAt (p q : UInt32) (ss : List Sample) : Machine :=
  (ss.filter (·.isOf p q)).foldl Machine.step {}

/-- The value samples of a point. -/
def valuesAt (p : UInt32) (ss : List Sample) : List UInt64 :=
  (ss.filter fun s => !s.isStamp && s.point == p).map Sample.timestamp

/-- The correlation ids a key can have. -/
@[irreducible] def allSeqs : Finset UInt32 := (Finset.range (2 ^ 24)).image UInt32.ofNat

/-- Everything added to the stage (p, f, t): the records of the point's machines, and its value samples. -/
def stageSamples (ss : List Sample) (p : UInt32) (f t : UInt8) : Multiset UInt64 :=
  (∑ q ∈ allSeqs, ((machineAt p q ss).recordsOf f t : Multiset UInt64)) +
    if isValueStage f t then (valuesAt p ss : Multiset UInt64) else 0

/-- What the machines of one point counted. -/
def pointCounters (ss : List Sample) (p : UInt32) : PointAnomalies where
  invalid := ∑ q ∈ allSeqs, (machineAt p q ss).invalid
  abandoned := ∑ q ∈ allSeqs, (machineAt p q ss).abandoned
  orphan := ∑ q ∈ allSeqs, (machineAt p q ss).orphan

/-! ## What a run needs room for -/

/-- The keys stamped in a run. -/
def keysOf (ss : List Sample) : Finset (UInt32 × UInt32) :=
  ((ss.filter Sample.isStamp).map fun s => (s.point, s.seq)).toFinset

def openKeys (ss : List Sample) : Finset (UInt32 × UInt32) :=
  (keysOf ss).filter fun k => (machineAt k.1 k.2 ss).span.isSome

def stagesOf (ss : List Sample) : Finset (UInt32 × UInt8 × UInt8) :=
  ((keysOf ss).biUnion fun k =>
      ((machineAt k.1 k.2 ss).records.map fun r => (k.1, r.fromStep, r.toStep)).toFinset) ∪
    ((ss.filter fun s => !s.isStamp).map fun s => (s.point, kValueStep, kValueStep)).toFinset

def anomalyPoints (ss : List Sample) : Finset UInt32 :=
  ((keysOf ss).filter fun k => (machineAt k.1 k.2 ss).anomalous).image Prod.fst

/-- At every prefix of the run, the tables have room for what the machines hold. -/
def Fits (cfg : Config) (ss : List Sample) : Prop :=
  ∀ pre ∈ ss.inits, (openKeys pre).card ≤ max 1 cfg.maxOpenSpans.toNat ∧
    (stagesOf pre).card ≤ max 1 cfg.maxStages.toNat ∧
    (anomalyPoints pre).card ≤ max 1 cfg.maxStages.toNat

instance (cfg : Config) (ss : List Sample) : Decidable (Fits cfg ss) := by
  unfold Fits
  infer_instance

/-! ## One more sample -/

theorem mem_allSeqs {q : UInt32} : q ∈ allSeqs ↔ q.toNat < 2 ^ 24 := by
  simp only [allSeqs, Finset.mem_image, Finset.mem_range]
  constructor
  · rintro ⟨n, hn, rfl⟩
    have hsize : UInt32.size = 2 ^ 32 := rfl
    rw [UInt32.toNat_ofNat_of_lt' (by omega)]; exact hn
  · intro h; exact ⟨q.toNat, h, UInt32.ofNat_toNat⟩

theorem machineAt_append (p q : UInt32) (ss : List Sample) (s : Sample) :
    machineAt p q (ss ++ [s]) = if s.isOf p q then (machineAt p q ss).step s else machineAt p q ss := by
  simp only [machineAt, List.filter_append, List.foldl_append]
  cases h : s.isOf p q <;> simp [h]

theorem machineAt_append_of_not {p q : UInt32} {s : Sample} (h : s.isOf p q = false) (ss : List Sample) :
    machineAt p q (ss ++ [s]) = machineAt p q ss := by
  rw [machineAt_append, h]; rfl

theorem isOf_iff {s : Sample} {p q : UInt32} :
    s.isOf p q = true ↔ s.isStamp = true ∧ s.point = p ∧ s.seq = q := by
  simp [Sample.isOf, and_assoc]

/-- A machine none of whose stamps occur has not moved. -/
theorem machineAt_of_notMem {p q : UInt32} {ss : List Sample} (h : (p, q) ∉ keysOf ss) :
    machineAt p q ss = {} := by
  have hf : ss.filter (·.isOf p q) = [] := by
    rw [List.filter_eq_nil_iff]
    intro s hs ho
    obtain ⟨h1, h2, h3⟩ := isOf_iff.mp ho
    refine h (List.mem_toFinset.mpr (List.mem_map.mpr ⟨s, List.mem_filter.mpr ⟨hs, h1⟩, ?_⟩))
    rw [h2, h3]
  rw [machineAt, hf]; rfl

/-- In every machine, the span has made no transition exactly when its last step is the begin. -/
theorem machineAt_transitions {p q : UInt32} {ss : List Sample} {sp : Span}
    (h : (machineAt p q ss).span = some sp) : sp.transitions = 0 ↔ sp.lastStep = kBeginStep := by
  have hfold : ∀ (l : List Sample) (m : Machine),
      (∀ sp, m.span = some sp → (sp.transitions = 0 ↔ sp.lastStep = kBeginStep)) →
      ∀ sp, (l.foldl Machine.step m).span = some sp →
        (sp.transitions = 0 ↔ sp.lastStep = kBeginStep) := by
    intro l
    induction l with
    | nil => intro m hm; exact hm
    | cons s l ih =>
        intro m hm
        refine ih _ fun sp' hsp' => ?_
        unfold Machine.step at hsp'
        split at hsp'
        · rename_i hnone
          split at hsp'
          · cases hsp'; simp
          · rw [hnone] at hsp'; cases hsp'
        · split at hsp'
          · cases hsp'; simp
          · rename_i hb
            split at hsp'
            · cases hsp'
            · split at hsp'
              · cases hsp'
              · cases hsp'; simp [hb]
  exact hfold _ {} (by intro sp hsp; cases hsp) sp h

theorem mem_openKeys {ss : List Sample} {p q : UInt32} :
    (p, q) ∈ openKeys ss ↔ (machineAt p q ss).span.isSome := by
  simp only [openKeys, Finset.mem_filter, and_iff_right_iff_imp]
  intro h
  by_contra hn
  rw [machineAt_of_notMem hn] at h
  cases h

theorem mem_anomalyPoints {ss : List Sample} {p : UInt32} :
    p ∈ anomalyPoints ss ↔ ∃ q, (machineAt p q ss).anomalous = true := by
  simp only [anomalyPoints, Finset.mem_image, Finset.mem_filter]
  constructor
  · rintro ⟨⟨p', q⟩, ⟨-, h⟩, rfl⟩; exact ⟨q, h⟩
  · rintro ⟨q, h⟩
    refine ⟨(p, q), ⟨?_, h⟩, rfl⟩
    by_contra hn
    rw [machineAt_of_notMem hn] at h
    cases h

theorem mem_stagesOf {ss : List Sample} {p : UInt32} {f t : UInt8} :
    (p, f, t) ∈ stagesOf ss ↔
      (∃ q, ∃ r ∈ (machineAt p q ss).records, r.fromStep = f ∧ r.toStep = t) ∨
        f = kValueStep ∧ t = kValueStep ∧ ∃ s ∈ ss, s.isStamp = false ∧ s.point = p := by
  simp only [stagesOf, Finset.mem_union, Finset.mem_biUnion, List.mem_toFinset, List.mem_map,
    List.mem_filter, Prod.mk.injEq, Bool.not_eq_true']
  constructor
  · rintro (⟨⟨p', q⟩, -, r, hr, rfl, rfl, rfl⟩ | ⟨s, ⟨hs, hv⟩, rfl, rfl, rfl⟩)
    · exact Or.inl ⟨q, r, hr, rfl, rfl⟩
    · exact Or.inr ⟨rfl, rfl, s, hs, hv, rfl⟩
  · rintro (⟨q, r, hr, rfl, rfl⟩ | ⟨rfl, rfl, s, hs, hv, rfl⟩)
    · refine Or.inl ⟨(p, q), ?_, r, hr, rfl, rfl, rfl⟩
      by_contra hn
      rw [machineAt_of_notMem hn] at hr
      cases hr
    · exact Or.inr ⟨s, ⟨hs, hv⟩, rfl, rfl, rfl⟩

/-- When one summand grows by `d`, so does the sum. -/
theorem sum_grow {M : Type} [AddCommMonoid M] {S : Finset UInt32} {F F' : UInt32 → M} {q : UInt32} {d : M}
    (hq : q ∈ S) (hother : ∀ r, r ≠ q → F' r = F r) (hgrow : F' q = F q + d) :
    ∑ r ∈ S, F' r = ∑ r ∈ S, F r + d := by
  have hF : ∀ r ∈ S, F' r = F r + if r = q then d else 0 := by
    intro r _
    by_cases h : r = q
    · subst h; simp [hgrow]
    · simp [h, hother r h]
  rw [Finset.sum_congr rfl hF, Finset.sum_add_distrib, Finset.sum_ite_eq' S q, if_pos hq]

/-! ## The sums after one more sample -/

/-- `E` with `v` added to the stage (p, f, t). -/
def bump (E : UInt32 → UInt8 → UInt8 → Multiset UInt64) (p : UInt32) (f t : UInt8) (v : UInt64) :
    UInt32 → UInt8 → UInt8 → Multiset UInt64 :=
  fun p' f' t' => E p' f' t' + if p' = p ∧ f' = f ∧ t' = t then {v} else 0

theorem bump_ne_zero {E : UInt32 → UInt8 → UInt8 → Multiset UInt64} {p p' : UInt32} {f t f' t' : UInt8}
    {v : UInt64} (h : E p' f' t' ≠ 0) : bump E p f t v p' f' t' ≠ 0 := by
  intro h0
  refine h (Multiset.card_eq_zero.mp ?_)
  have hcard := congrArg Multiset.card h0
  simp only [bump, Multiset.card_add, Multiset.card_zero] at hcard
  omega

theorem bump_self_ne_zero (E : UInt32 → UInt8 → UInt8 → Multiset UInt64) (p : UInt32) (f t : UInt8)
    (v : UInt64) : bump E p f t v p f t ≠ 0 := by
  intro h0
  have hcard := congrArg Multiset.card h0
  simp [bump] at hcard

/-- `E` with the records of a point added. -/
def bumpAll (E : UInt32 → UInt8 → UInt8 → Multiset UInt64) (p : UInt32) (rs : List Transition) :
    UInt32 → UInt8 → UInt8 → Multiset UInt64 :=
  rs.foldl (fun E r => bump E p r.fromStep r.toStep r.cycles) E

theorem bumpAll_ne_zero (p : UInt32) (rs : List Transition) {E : UInt32 → UInt8 → UInt8 → Multiset UInt64}
    {p' : UInt32} {f t : UInt8} (h : E p' f t ≠ 0) : bumpAll E p rs p' f t ≠ 0 := by
  induction rs generalizing E with
  | nil => exact h
  | cons r rs ih => exact ih (bump_ne_zero h)

theorem valuesAt_append_stamp {s : Sample} (hs : s.isStamp = true) (p : UInt32) (ss : List Sample) :
    valuesAt p (ss ++ [s]) = valuesAt p ss := by
  simp [valuesAt, hs]

theorem not_isOf_of_value {s : Sample} (hv : s.isStamp = false) (p q : UInt32) : s.isOf p q = false := by
  simp [Sample.isOf, hv]

theorem stageSamples_value {s : Sample} (hv : s.isStamp = false) (ss : List Sample) :
    stageSamples (ss ++ [s]) = bump (stageSamples ss) s.point kValueStep kValueStep s.timestamp := by
  funext p f t
  simp only [stageSamples, bump, machineAt_append_of_not (not_isOf_of_value hv p _), add_assoc]
  congr 1
  by_cases hst : f = kValueStep ∧ t = kValueStep
  · obtain ⟨rfl, rfl⟩ := hst
    by_cases hp : p = s.point
    · subst hp
      simp [isValueStage, valuesAt, hv, ← Multiset.coe_add]
    · simp [isValueStage, valuesAt, hv, hp, Ne.symm hp]
  · have hf : isValueStage f t = false := by
      simp only [isValueStage, Bool.and_eq_false_iff, beq_eq_false_iff_ne]
      by_contra hcon
      push Not at hcon
      exact hst hcon
    simp only [hf, Bool.false_eq_true, if_false, hst, and_false]
    rfl

/-- What one more stamp adds to the stages is what it adds to the records of its own machine. -/
theorem stageSamples_stamp {s : Sample} (hs : s.isStamp = true) {ss : List Sample} (new : List Transition)
    (hnew : ((machineAt s.point s.seq ss).step s).records = (machineAt s.point s.seq ss).records ++ new) :
    stageSamples (ss ++ [s]) = bumpAll (stageSamples ss) s.point new := by
  have hfold : ∀ (new : List Transition) (E : UInt32 → UInt8 → UInt8 → Multiset UInt64) p f t,
      bumpAll E s.point new p f t =
        E p f t + if p = s.point then
          (((new.filter fun r => r.fromStep = f ∧ r.toStep = t).map Transition.cycles : List UInt64) :
            Multiset UInt64) else 0 := by
    intro new
    induction new with
    | nil => intro E p f t; simp [bumpAll]
    | cons r new ih =>
        intro E p f t
        rw [bumpAll, List.foldl_cons, ← bumpAll, ih]
        simp only [bump, add_assoc]
        congr 1
        by_cases hp : p = s.point
        · by_cases hr : r.fromStep = f ∧ r.toStep = t
          · simp [hp, hr.1, hr.2]
          · have hr' : ¬(f = r.fromStep ∧ t = r.toStep) := fun h => hr ⟨h.1.symm, h.2.symm⟩
            simp [hp, hr, hr']
        · simp [hp]
  funext p f t
  rw [hfold]
  simp only [stageSamples, valuesAt_append_stamp hs]
  rw [add_right_comm]
  refine congrArg (· + _) ?_
  by_cases hp : p = s.point
  · subst hp
    rw [if_pos rfl]
    refine sum_grow (mem_allSeqs.mpr s.seq_lt) (fun q hq => ?_) ?_
    · rw [machineAt_append_of_not (by simp [Sample.isOf, Ne.symm hq])]
    · rw [machineAt_append, if_pos (isOf_iff.mpr ⟨hs, rfl, rfl⟩)]
      simp only [Machine.recordsOf, hnew, List.filter_append, List.map_append, ← Multiset.coe_add]
  · rw [if_neg hp, add_zero]
    refine Finset.sum_congr rfl fun q _ => ?_
    rw [machineAt_append_of_not (by simp [Sample.isOf, Ne.symm hp])]

theorem pointCounters_value {s : Sample} (hv : s.isStamp = false) (ss : List Sample) :
    pointCounters (ss ++ [s]) = pointCounters ss := by
  funext p
  simp only [pointCounters, machineAt_append_of_not (not_isOf_of_value hv p _)]

/-- What one more stamp adds to the counters is what it adds to those of its own machine. -/
theorem pointCounters_stamp {s : Sample} (hs : s.isStamp = true) {ss : List Sample} {i a o : Nat}
    (hi : ((machineAt s.point s.seq ss).step s).invalid = (machineAt s.point s.seq ss).invalid + i)
    (ha : ((machineAt s.point s.seq ss).step s).abandoned = (machineAt s.point s.seq ss).abandoned + a)
    (ho : ((machineAt s.point s.seq ss).step s).orphan = (machineAt s.point s.seq ss).orphan + o) (p : UInt32) :
    pointCounters (ss ++ [s]) p =
      if p = s.point then
        { pointCounters ss p with
          invalid := (pointCounters ss p).invalid + i
          abandoned := (pointCounters ss p).abandoned + a
          orphan := (pointCounters ss p).orphan + o }
      else pointCounters ss p := by
  by_cases hp : p = s.point
  · subst hp
    have hown : machineAt s.point s.seq (ss ++ [s]) = (machineAt s.point s.seq ss).step s := by
      rw [machineAt_append, if_pos (isOf_iff.mpr ⟨hs, rfl, rfl⟩)]
    have hother : ∀ q, q ≠ s.seq → machineAt s.point q (ss ++ [s]) = machineAt s.point q ss :=
      fun q hq => machineAt_append_of_not (by simp [Sample.isOf, Ne.symm hq]) ss
    have hmem := mem_allSeqs.mpr s.seq_lt
    simp only [pointCounters, if_true, PointAnomalies.mk.injEq, and_true]
    have hsum : ∀ (c : Machine → Nat) (d : Nat),
        c ((machineAt s.point s.seq ss).step s) = c (machineAt s.point s.seq ss) + d →
        ∑ q ∈ allSeqs, c (machineAt s.point q (ss ++ [s])) =
          ∑ q ∈ allSeqs, c (machineAt s.point q ss) + d := fun c d hd =>
      sum_grow hmem (fun q hq => by rw [hother q hq]) (by rw [hown, hd])
    exact ⟨hsum Machine.invalid i hi, hsum Machine.abandoned a ha, hsum Machine.orphan o ho⟩
  · have hother : ∀ q, machineAt p q (ss ++ [s]) = machineAt p q ss :=
      fun q => machineAt_append_of_not (by simp [Sample.isOf, Ne.symm hp]) ss
    simp only [pointCounters, hp, if_false, hother]

/-- A stage with samples is one of the run's stages. -/
theorem mem_stagesOf_of_samples {ss : List Sample} {p : UInt32} {f t : UInt8}
    (h : stageSamples ss p f t ≠ 0) : (p, f, t) ∈ stagesOf ss := by
  rw [mem_stagesOf]
  by_cases hsum : ∑ q ∈ allSeqs, ((machineAt p q ss).recordsOf f t : Multiset UInt64) = 0
  · rw [stageSamples, hsum, zero_add] at h
    right
    split at h
    · rename_i hv
      simp only [isValueStage, Bool.and_eq_true, beq_iff_eq] at hv
      refine ⟨hv.1, hv.2, ?_⟩
      obtain ⟨v, hv'⟩ := List.exists_mem_of_ne_nil _ (by simpa using h : valuesAt p ss ≠ [])
      obtain ⟨s, hs, -⟩ := List.mem_map.mp hv'
      obtain ⟨hs1, hs2⟩ := List.mem_filter.mp hs
      simp only [Bool.and_eq_true, Bool.not_eq_true', beq_iff_eq] at hs2
      exact ⟨s, hs1, hs2.1, hs2.2⟩
    · exact absurd rfl h
  · left
    obtain ⟨q, -, hq⟩ := Finset.exists_ne_zero_of_sum_ne_zero hsum
    obtain ⟨v, hv⟩ := List.exists_mem_of_ne_nil _ (by simpa using hq : (machineAt p q ss).recordsOf f t ≠ [])
    obtain ⟨r, hr, -⟩ := List.mem_map.mp hv
    obtain ⟨hr1, hr2⟩ := List.mem_filter.mp hr
    simp only [decide_eq_true_eq] at hr2
    exact ⟨q, r, hr1, hr2⟩

/-- A point with a counter is one of the run's points with an anomaly. -/
theorem mem_anomalyPoints_of_counters {ss : List Sample} {p : UInt32} (h : pointCounters ss p ≠ {}) :
    p ∈ anomalyPoints ss := by
  rw [mem_anomalyPoints]
  by_contra hcon
  push Not at hcon
  refine h ?_
  have hz : ∀ q, (machineAt p q ss).invalid = 0 ∧ (machineAt p q ss).abandoned = 0 ∧
      (machineAt p q ss).orphan = 0 := by
    intro q
    have := hcon q
    simp only [Machine.anomalous, ne_eq, Bool.not_eq_true, Bool.or_eq_false_iff, bne_eq_false_iff_eq] at this
    exact ⟨this.1.2, this.2, this.1.1⟩
  simp only [pointCounters, hz, Finset.sum_const_zero]

end SlickPerfmon
