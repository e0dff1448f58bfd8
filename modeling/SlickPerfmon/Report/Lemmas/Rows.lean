import SlickPerfmon.Report.Lemmas.Grows
import Mathlib.Algebra.BigOperators.Group.List.Basic

/-!
# The rows of a flush

What each pass of `build_reports` adds to one column of the file: the first pass the new counts of a point on
each of its stages that has samples, the second those of the points that have none, the third those of the
overflow bucket.
-/

namespace SlickPerfmon

open Library

variable {A F : Type}

namespace PointAnomalies

theorem get_of_not_any {a : PointAnomalies} (h : a.any = false) (c : Counter) : a.get c = 0 := by
  simp only [any, Bool.or_eq_false_iff, bne_eq_false_iff_eq] at h
  obtain ⟨⟨⟨hi, ha⟩, ho⟩, hr⟩ := h
  cases c
  · exact hi
  · exact ha
  · exact ho
  · exact hr

theorem any_of_get {a : PointAnomalies} {c : Counter} (h : 0 < a.get c) : a.any = true := by
  cases hany : a.any with
  | true => rfl
  | false =>
      rw [get_of_not_any hany] at h
      exact absurd h (Nat.lt_irrefl 0)

theorem not_any_of_get {a : PointAnomalies} (h : ∀ c, a.get c = 0) : a.any = false := by
  simp only [any, Bool.or_eq_false_iff, bne_eq_false_iff_eq]
  exact ⟨⟨⟨h .invalid, h .abandoned⟩, h .orphan⟩, h .outOfRange⟩

theorem ext_get {a b : PointAnomalies} (h : ∀ c, a.get c = b.get c) : a = b := by
  cases a
  cases b
  exact congr (congr (congr (congrArg _ (h .invalid)) (h .abandoned)) (h .orphan)) (h .outOfRange)

theorem get_since (a b : PointAnomalies) (c : Counter) : (a.since b).get c = a.get c - b.get c := by
  cases c <;> rfl

end PointAnomalies

namespace Build

/-- The rows filled so far; behind them the vector holds what an earlier flush left. -/
def rows (b : Build F) : List (StageReport F) := b.out.take b.n

theorem rows_putRow {b : Build F} (h : b.n ≤ b.out.length) (r : StageReport F) :
    (b.putRow r).rows = b.rows ++ [r] ∧ (b.putRow r).n ≤ (b.putRow r).out.length := by
  unfold putRow rows
  by_cases hn : b.n = b.out.length
  · simp [hn]
  · have hlt : b.n < b.out.length := by omega
    simp only [if_neg hn, List.length_set]
    refine ⟨?_, hlt⟩
    rw [List.take_succ_eq_append_getElem (by simpa using hlt), List.take_set_of_le (Nat.le_refl _),
      List.getElem_set_self]

end Build

namespace Reporter

/-! ## One column -/

/-- What a row puts into a column of the file. -/
def weight (c : Counter) (r : StageReport F) : Nat := if written r then r.interval.get c else 0

def columnOf (c : Counter) (rows : List (StageReport F)) : Nat := (rows.map (weight c)).sum

theorem columnOf_append (c : Counter) (rows : List (StageReport F)) (r : StageReport F) :
    columnOf c (rows ++ [r]) = columnOf c rows + weight c r := by
  simp [columnOf]

theorem columnOf_perm {c : Counter} {rows rows' : List (StageReport F)} (h : rows.Perm rows') :
    columnOf c rows = columnOf c rows' := (h.map _).sum_eq

theorem columnOf_modify (c : Counter) (f : StageReport F → StageReport F) {rows : List (StageReport F)} {i : Nat}
    {r : StageReport F} (h : rows[i]? = some r) (h0 : weight c r = 0) :
    columnOf c (rows.modify i f) = columnOf c rows + weight c (f r) := by
  induction rows generalizing i with
  | nil => cases h
  | cons x xs ih =>
      cases i with
      | zero =>
          cases h
          simp only [columnOf, List.modify_zero_cons, List.map_cons, List.sum_cons, h0]
          omega
      | succ i =>
          have := ih (i := i) (by simpa using h)
          simp only [columnOf, List.modify_succ_cons, List.map_cons, List.sum_cons] at this ⊢
          omega

variable [Accum A] (env : ReportEnv A F) (st : Reporter A F) (newLosses newStalled : Nat)

theorem get_toStats (acc : A) (an : PointAnomalies) (dropped stalled : Nat) (raw : Bool) (c : Counter) :
    (env.toStats acc an dropped stalled raw).get c = an.get c := by
  cases c <;> rfl

/-- What happened to a point since the previous flush. -/
def newAnomalies (p : UInt32) : PointAnomalies :=
  (st.pairer.anomaliesOf p).since (baselineOf st.pointBaseline p)

theorem weight_stageRow (c : Counter) (g : Stage A) :
    weight c (st.stageRow env newLosses newStalled g) =
      if Accum.count g.interval ≠ 0 then (st.newAnomalies g.point).get c else 0 := by
  have hw : written (st.stageRow env newLosses newStalled g) = (Accum.count g.interval != 0) := by
    simp [written, stageRow, ReportEnv.toStats, bne]
  unfold weight
  rw [hw]
  by_cases h0 : Accum.count g.interval = 0
  · simp [h0]
  · simp only [bne_iff_ne, ne_eq, h0, not_false_eq_true, if_true]
    exact get_toStats env _ _ _ _ _ c

/-- An anomaly row that is not written has nothing to say. -/
theorem weight_anomalyRow (c : Counter) (p : UInt32) (name : String) (overflow : Bool)
    (delta total : PointAnomalies) :
    weight c (st.anomalyRow env newLosses newStalled p name overflow delta total) = delta.get c := by
  unfold weight
  split
  · exact get_toStats env _ _ _ _ _ c
  · rename_i hw
    have hany : delta.any = false := by
      cases ha : delta.any
      · rfl
      · simp [written, anomalyRow, ha] at hw
    exact (PointAnomalies.get_of_not_any hany c).symm

/-! ## The first pass -/

/-- The stages of `p` among `es` that have samples in the interval. -/
def sampledIn (es : List (UInt64 × Stage A)) (p : UInt32) : Nat :=
  ((es.filter fun e => Accum.count e.2.interval != 0).map fun e => e.2.point).count p

theorem sampledIn_append (es : List (UInt64 × Stage A)) (e : UInt64 × Stage A) (p : UInt32) :
    sampledIn (es ++ [e]) p =
      sampledIn es p + if e.2.point = p ∧ Accum.count e.2.interval ≠ 0 then 1 else 0 := by
  by_cases h0 : Accum.count e.2.interval = 0
  · simp [sampledIn, h0]
  · by_cases hp : e.2.point = p
    · simp [sampledIn, h0, hp]
    · simp [sampledIn, h0, hp]

/-- What `row_points_` knows of the stages walked so far. -/
structure Noted (done : List (UInt64 × Stage A)) (rows : OpenMap RowRef) : Prop where
  wf : rows.WF
  keyed : ∀ k ref, rows.find k = some ref → ∃ e ∈ done, k = e.2.point.toUInt64
  absent : ∀ p : UInt32, rows.find p.toUInt64 = none → ∀ e ∈ done, e.2.point ≠ p
  carrier : ∀ (p : UInt32) ref, rows.find p.toUInt64 = some ref →
    ∃ e, done[ref.carrier]? = some e ∧ e.2.point = p
  samples : ∀ (p : UInt32) ref, rows.find p.toUInt64 = some ref →
    (ref.hasSamples = true ↔ sampledIn done p ≠ 0)

theorem sampledIn_eq_zero {es : List (UInt64 × Stage A)} {p : UInt32} (h : ∀ e ∈ es, e.2.point ≠ p) :
    sampledIn es p = 0 := by
  refine List.count_eq_zero.mpr fun hmem => ?_
  obtain ⟨e, he, hp⟩ := List.mem_map.mp hmem
  exact h e (List.mem_of_mem_filter he) hp

/-- One entry of the table changes, and it stays the entry of a row of the point. -/
theorem noteRow_spec {rows : OpenMap RowRef} (h : rows.WF) {p : UInt32} (index : Nat) {r : StageReport F}
    (hroom : rows.find p.toUInt64 = none → rows.size < rows.maxEntries) :
    ∃ ref', (noteRow rows p index r).WF ∧ (noteRow rows p index r).maxEntries = rows.maxEntries ∧
      (∀ k, (noteRow rows p index r).find k = if k = p.toUInt64 then some ref' else rows.find k) ∧
      (rows.find p.toUInt64 = none ∧ ref' = ⟨index, r.interval.count != 0⟩ ∨
        ∃ ref, rows.find p.toUInt64 = some ref ∧ (ref'.carrier = ref.carrier ∨ ref'.carrier = index) ∧
          ref'.hasSamples = (ref.hasSamples || r.interval.count != 0)) := by
  unfold noteRow
  simp only
  cases hf : rows.find p.toUInt64 with
  | none =>
      obtain ⟨hv, hins⟩ := OpenMap.insert_new (w := ⟨index, false⟩) h hf (hroom hf)
      cases hi : rows.insert p.toUInt64 ⟨index, false⟩ with
      | mk m o =>
          rw [hi] at hv hins
          cases hv
          have hm := OpenMap.modify_present hins.wf
            (fun ref : RowRef => { ref with hasSamples := ref.hasSamples || r.interval.count != 0 })
            (by rw [hins.find, if_pos rfl] : m.find p.toUInt64 = some ⟨index, false⟩)
          refine ⟨_, hm.wf, hm.maxEntries.trans hins.maxEntries, fun k => ?_, Or.inl ⟨rfl, rfl⟩⟩
          simp only [hm.find, hins.find]
          split <;> simp
  | some ref =>
      have hm := OpenMap.modify_present h
        (fun ref : RowRef =>
          let ref' : RowRef :=
            if r.fromStep = kBeginStep ∧ r.toStep = kBeginStep then { ref with carrier := index } else ref
          { ref' with hasSamples := ref'.hasSamples || r.interval.count != 0 }) hf
      refine ⟨_, hm.wf, hm.maxEntries, hm.find, Or.inr ⟨ref, rfl, ?_, ?_⟩⟩
      · simp only
        split
        · exact Or.inr rfl
        · exact Or.inl rfl
      · simp only
        split <;> rfl

theorem Noted.step {done : List (UInt64 × Stage A)} {rows : OpenMap RowRef} (h : Noted done rows)
    {e : UInt64 × Stage A} {r : StageReport F} (hr : r.interval.count = Accum.count e.2.interval)
    (hroom : done.length < rows.maxEntries) :
    Noted (done ++ [e]) (noteRow rows e.2.point done.length r) ∧
      (noteRow rows e.2.point done.length r).maxEntries = rows.maxEntries := by
  have hsize : rows.find e.2.point.toUInt64 = none → rows.size < rows.maxEntries := by
    intro hnone
    have hcard := OpenMap.size_lt_card h.wf UInt32.toUInt64
      (S := ((done ++ [e]).map fun e => e.2.point).toFinset) (x := e.2.point) (by simp) hnone
      (by
        intro k ref hk
        obtain ⟨e', he', hk'⟩ := h.keyed k ref hk
        exact ⟨e'.2.point, List.mem_toFinset.mpr (List.mem_map.mpr ⟨e', by simp [he'], rfl⟩), hk'⟩)
    have hlen := List.toFinset_card_le ((done ++ [e]).map fun e => e.2.point)
    simp only [List.length_map, List.length_append, List.length_singleton] at hlen
    omega
  obtain ⟨ref', hwf, hmax, hfind, href⟩ := noteRow_spec (r := r) h.wf done.length hsize
  refine ⟨⟨hwf, fun k ref hk => ?_, fun p hp e' he' => ?_, fun p ref hp => ?_, fun p ref hp => ?_⟩, hmax⟩
  · rw [hfind] at hk
    split at hk
    · rename_i hke
      exact ⟨e, by simp, hke⟩
    · obtain ⟨e', he', hk'⟩ := h.keyed k ref hk
      exact ⟨e', by simp [he'], hk'⟩
  · rw [hfind] at hp
    split at hp
    · cases hp
    · rename_i hne
      rcases List.mem_append.mp he' with he' | he'
      · exact h.absent p hp e' he'
      · cases List.mem_singleton.mp he'
        intro heq
        exact hne (by rw [heq])
  · rw [hfind] at hp
    split at hp
    · rename_i hpe
      cases hp
      have hpe := UInt32.toUInt64_inj.mp hpe
      have hself : (done ++ [e])[done.length]? = some e := by simp
      rcases href with ⟨-, rfl⟩ | ⟨ref, hf, hcar | hcar, -⟩
      · exact ⟨e, hself, hpe.symm⟩
      · obtain ⟨e', he', hp'⟩ := h.carrier _ _ hf
        exact ⟨e', by rw [hcar, List.getElem?_append_left (List.getElem?_eq_some_iff.mp he').1]; exact he',
          by rw [hpe]; exact hp'⟩
      · exact ⟨e, by rw [hcar]; exact hself, hpe.symm⟩
    · obtain ⟨e', he', hp'⟩ := h.carrier p ref hp
      exact ⟨e', by rw [List.getElem?_append_left (List.getElem?_eq_some_iff.mp he').1]; exact he', hp'⟩
  · rw [hfind] at hp
    rw [sampledIn_append]
    split at hp
    · rename_i hpe
      cases hp
      cases UInt32.toUInt64_inj.mp hpe
      rcases href with ⟨hnone, rfl⟩ | ⟨ref, hf, -, hhas⟩
      · rw [sampledIn_eq_zero (h.absent _ hnone)]
        simp [hr]
      · have hs := h.samples _ _ hf
        rw [hhas, Bool.or_eq_true, hs, hr]
        by_cases h0 : Accum.count e.2.interval = 0 <;> simp [h0]
    · rename_i hne
      have : ¬ (e.2.point = p ∧ Accum.count e.2.interval ≠ 0) := fun h => hne (by rw [h.1])
      rw [if_neg this]
      exact h.samples p ref hp

/-- The vector and the table after the stages `done`. -/
structure StagesBuilt (done : List (UInt64 × Stage A)) (b : Build F) : Prop where
  fits : b.n ≤ b.out.length
  rows : b.rows = done.map fun e => st.stageRow env newLosses newStalled e.2
  noted : Noted done b.rowPoints

theorem StagesBuilt.length {done : List (UInt64 × Stage A)} {b : Build F}
    (h : StagesBuilt env st newLosses newStalled done b) : b.n = done.length := by
  have := congrArg List.length h.rows
  rw [Build.rows, List.length_take, List.length_map] at this
  have := h.fits
  omega

theorem StagesBuilt.fold (todo : List (UInt64 × Stage A)) {done : List (UInt64 × Stage A)} {b : Build F}
    (h : StagesBuilt env st newLosses newStalled done b)
    (hroom : (done ++ todo).length ≤ b.rowPoints.maxEntries) :
    StagesBuilt env st newLosses newStalled (done ++ todo)
        (todo.foldl (st.stageStep env newLosses newStalled) b) ∧
      (todo.foldl (st.stageStep env newLosses newStalled) b).rowPoints.maxEntries = b.rowPoints.maxEntries ∧
      (todo.foldl (st.stageStep env newLosses newStalled) b).baseline = b.baseline := by
  induction todo generalizing done b with
  | nil => exact ⟨by simpa using h, rfl, rfl⟩
  | cons e todo ih =>
      obtain ⟨hrows, hfits⟩ := Build.rows_putRow h.fits (st.stageRow env newLosses newStalled e.2)
      have hnoted := Noted.step (r := st.stageRow env newLosses newStalled e.2) (e := e) h.noted rfl
        (by simp only [List.length_append, List.length_cons] at hroom; omega)
      have hindex : (b.putRow (st.stageRow env newLosses newStalled e.2)).n - 1 = done.length := by
        rw [← h.length]; rfl
      have hstep : StagesBuilt env st newLosses newStalled (done ++ [e])
          (st.stageStep env newLosses newStalled b e) :=
        { fits := hfits
          rows := by
            rw [List.map_append, ← h.rows]
            exact hrows
          noted := by
            unfold stageStep
            simp only [hindex]
            exact hnoted.1 }
      have hmax : (st.stageStep env newLosses newStalled b e).rowPoints.maxEntries = b.rowPoints.maxEntries := by
        unfold stageStep
        simp only [hindex]
        exact hnoted.2
      obtain ⟨hb, hm, hbase⟩ := ih hstep (by rw [hmax, List.append_assoc]; exact hroom)
      rw [List.append_assoc] at hb
      exact ⟨hb, hm.trans hmax, hbase⟩

/-- A stage of a point without samples has none. -/
theorem count_of_notSampled {es : List (UInt64 × Stage A)} {i : Nat} {e : UInt64 × Stage A} (he : es[i]? = some e)
    (hzero : sampledIn es e.2.point = 0) : Accum.count e.2.interval = 0 := by
  by_contra hne
  have hmem : e.2.point ∈ (es.filter fun e => Accum.count e.2.interval != 0).map fun e => e.2.point :=
    List.mem_map.mpr ⟨e, List.mem_filter.mpr ⟨List.mem_of_getElem? he, by simpa using hne⟩, rfl⟩
  exact absurd hzero (Nat.ne_of_gt (List.count_pos_iff.mpr hmem))

/-! ## The second pass -/

theorem any_of_since {a b : PointAnomalies} (h : (a.since b).any = true) : a.any = true := by
  cases ha : a.any with
  | true => rfl
  | false =>
      have hzero : (a.since b).any = false := PointAnomalies.not_any_of_get fun c => by
        rw [PointAnomalies.get_since, PointAnomalies.get_of_not_any ha, Nat.zero_sub]
      rw [hzero] at h
      cases h

/-- What the pass does at one point, with `delta` what is new there. -/
theorem pointStep_cases {b : Build F} (hfits : b.n ≤ b.out.length) {e : UInt64 × PointAnomalies} {p : UInt32}
    (hp : e.1.toUInt32 = p) {delta : PointAnomalies} (hd : e.2.since (baselineOf b.baseline p) = delta) :
    (st.pointStep env newLosses newStalled b e).n ≤ (st.pointStep env newLosses newStalled b e).out.length ∧
    (st.pointStep env newLosses newStalled b e).rowPoints = b.rowPoints ∧
    (st.pointStep env newLosses newStalled b e).baseline =
      (if e.2.any && delta.any then moveBaseline b.baseline p e.2 else b.baseline) ∧
    ((e.2.any = false ∧ (st.pointStep env newLosses newStalled b e).rows = b.rows) ∨
      (e.2.any = true ∧ b.rowPoints.find p.toUInt64 = none ∧
        (st.pointStep env newLosses newStalled b e).rows =
          b.rows ++ [st.anomalyRow env newLosses newStalled p (env.pointName p) false delta e.2]) ∨
      (∃ ref, e.2.any = true ∧ b.rowPoints.find p.toUInt64 = some ref ∧
        (ref.hasSamples = true ∨ delta.any = false) ∧
        (st.pointStep env newLosses newStalled b e).rows = b.rows) ∨
      ∃ ref, e.2.any = true ∧ b.rowPoints.find p.toUInt64 = some ref ∧ ref.hasSamples = false ∧ delta.any = true ∧
        (st.pointStep env newLosses newStalled b e).rows =
          b.rows.modify ref.carrier fun r => { r with anomaliesOnly := true }) := by
  unfold pointStep
  simp only [hp, hd]
  cases hany : e.2.any with
  | false => exact ⟨hfits, rfl, rfl, Or.inl ⟨rfl, rfl⟩⟩
  | true =>
      simp only [if_true, Bool.true_and]
      set b₁ : Build F := if delta.any = true then { b with baseline := moveBaseline b.baseline p e.2 } else b with hb₁
      have hsame : b₁.out = b.out ∧ b₁.n = b.n ∧ b₁.rowPoints = b.rowPoints ∧
          b₁.baseline = if delta.any then moveBaseline b.baseline p e.2 else b.baseline := by
        rw [hb₁]; split <;> exact ⟨rfl, rfl, rfl, rfl⟩
      obtain ⟨ho, hn, hrp, hbl⟩ := hsame
      have hrows₁ : b₁.rows = b.rows := by rw [Build.rows, ho, hn, Build.rows]
      have hfits₁ : b₁.n ≤ b₁.out.length := by rw [ho, hn]; exact hfits
      rw [← hrp]
      cases hr : b₁.rowPoints.find p.toUInt64 with
      | none =>
          obtain ⟨hput, hfits'⟩ := Build.rows_putRow hfits₁
            (st.anomalyRow env newLosses newStalled p (env.pointName p) false delta e.2)
          exact ⟨hfits', rfl, hbl, Or.inr (Or.inl ⟨trivial, rfl, by rw [hput, hrows₁]⟩)⟩
      | some ref =>
          simp only
          by_cases hcond : (ref.hasSamples || !delta.any) = true
          · rw [if_pos hcond]
            rw [Bool.or_eq_true, Bool.not_eq_true'] at hcond
            exact ⟨hfits₁, rfl, hbl, Or.inr (Or.inr (Or.inl ⟨ref, trivial, rfl, hcond, hrows₁⟩))⟩
          · rw [if_neg hcond]
            rw [Bool.or_eq_true, not_or, Bool.not_eq_true, Bool.not_eq_true', Bool.not_eq_false] at hcond
            refine ⟨by simpa using hfits₁, rfl, hbl, Or.inr (Or.inr (Or.inr ⟨ref, trivial, rfl, hcond.1, hcond.2, ?_⟩))⟩
            rw [← hrows₁]
            exact List.take_modify ..

theorem baselineOf_eq {m : OpenMap PointAnomalies} {p : UInt32} {a : PointAnomalies}
    (h : m.find p.toUInt64 = some a) : baselineOf m p = a := by
  rw [baselineOf, h]; rfl

theorem moveBaseline_spec {m : OpenMap PointAnomalies} (h : m.WF) {p : UInt32} (an : PointAnomalies)
    (hroom : m.find p.toUInt64 = none → m.size < m.maxEntries) :
    (moveBaseline m p an).WF ∧ (moveBaseline m p an).maxEntries = m.maxEntries ∧
      ∀ k, (moveBaseline m p an).find k = if k = p.toUInt64 then some an else m.find k := by
  unfold moveBaseline
  cases hf : m.find p.toUInt64 with
  | none =>
      obtain ⟨-, hins⟩ := OpenMap.insert_new (w := an) h hf (hroom hf)
      exact ⟨hins.wf, hins.maxEntries, hins.find⟩
  | some v =>
      have hm := OpenMap.modify_present h (fun _ => an) hf
      exact ⟨hm.wf, hm.maxEntries, hm.find⟩

/-- The baseline table between two flushes: its points have counters, and it has room for every point. -/
structure BaselineFits (P : Pairer A) (m : OpenMap PointAnomalies) : Prop where
  wf : m.WF
  max : m.maxEntries = P.points.maxEntries
  keyed : ∀ k v, m.find k = some v → ∃ a, P.points.find k = some a

omit [Accum A] in
theorem BaselineFits.room {P : Pairer A} {m : OpenMap PointAnomalies} (h : BaselineFits P m) (hP : P.points.WF)
    {k : UInt64} {a : PointAnomalies} (hk : P.points.find k = some a) (hnone : m.find k = none) :
    m.size < m.maxEntries := by
  have hkeys : ∀ k a, P.points.find k = some a → k ∈ (P.points.entries.map Prod.fst).toFinset := by
    intro k a hk
    exact List.mem_toFinset.mpr (List.mem_map.mpr ⟨(k, a), (OpenMap.find_eq_some hP).mp hk, rfl⟩)
  have hcard := OpenMap.size_lt_card h.wf (id : UInt64 → UInt64) (hkeys k a hk) hnone
    (by
      intro k' v hk'
      obtain ⟨a', ha'⟩ := h.keyed k' v hk'
      exact ⟨k', hkeys k' a' ha', rfl⟩)
  have hlen := List.toFinset_card_le (P.points.entries.map Prod.fst)
  rw [List.length_map, hP.size_eq] at hlen
  have hle := hP.size_le
  rw [h.max]
  omega

/-- The rows and the baseline after the points `done`. -/
structure PointsBuilt (c : Counter) (es : List (UInt64 × Stage A)) (done : List UInt32) (b : Build F) : Prop where
  fits : b.n ≤ b.out.length
  noted : Noted es b.rowPoints
  stages : ∀ (i : Nat) (e : UInt64 × Stage A), es[i]? = some e → e.2.point ∉ done →
    b.rows[i]? = some (st.stageRow env newLosses newStalled e.2)
  baseline : BaselineFits st.pairer b.baseline
  moved : ∀ p, baselineOf b.baseline p =
    if p ∈ done then st.pairer.anomaliesOf p else baselineOf st.pointBaseline p
  column : columnOf c b.rows = columnOf c (es.map fun e => st.stageRow env newLosses newStalled e.2) +
    (done.map fun p => if sampledIn es p = 0 then (st.newAnomalies p).get c else 0).sum

namespace PointsBuilt

variable {env st newLosses newStalled} {c : Counter} {es : List (UInt64 × Stage A)} {done : List UInt32}
  {b : Build F} {p : UInt32}

/-- The baseline moves up to the point's counters, if they are not there already. -/
theorem based (h : PointsBuilt env st newLosses newStalled c es done b) (hP : st.pairer.points.WF)
    {an : PointAnomalies} (hf : st.pairer.points.find p.toUInt64 = some an)
    (hle : (baselineOf st.pointBaseline p).Le (st.pairer.anomaliesOf p)) {m : OpenMap PointAnomalies}
    (hm : m = if (st.newAnomalies p).any then moveBaseline b.baseline p an else b.baseline) :
    BaselineFits st.pairer m ∧ ∀ q, baselineOf m q =
      if q ∈ done ++ [p] then st.pairer.anomaliesOf q else baselineOf st.pointBaseline q := by
  have hof : st.pairer.anomaliesOf p = an := by rw [Pairer.anomaliesOf, hf]; rfl
  cases hany : (st.newAnomalies p).any with
  | false =>
      rw [hany, if_neg (by simp)] at hm
      subst hm
      have hsame : baselineOf st.pointBaseline p = st.pairer.anomaliesOf p := by
        refine PointAnomalies.ext_get fun c => ?_
        have h0 := PointAnomalies.get_of_not_any hany c
        rw [newAnomalies, PointAnomalies.get_since] at h0
        have := hle c
        omega
      refine ⟨h.baseline, fun q => ?_⟩
      rw [h.moved]
      by_cases hq : q ∈ done
      · simp [hq]
      · by_cases hqp : q = p
        · simp [hqp, hsame]
        · simp [hq, hqp]
  | true =>
      rw [hany, if_pos rfl] at hm
      subst hm
      obtain ⟨hwf, hmax, hfind⟩ := moveBaseline_spec h.baseline.wf an (h.baseline.room hP hf)
      refine ⟨⟨hwf, hmax.trans h.baseline.max, fun k v hk => ?_⟩, fun q => ?_⟩
      · rw [hfind] at hk
        split at hk
        · rename_i hkp
          exact ⟨an, by rw [hkp]; exact hf⟩
        · exact h.baseline.keyed k v hk
      · by_cases hqp : q = p
        · subst hqp
          rw [baselineOf_eq (by rw [hfind, if_pos rfl]), if_pos (by simp), hof]
        · have hne : q.toUInt64 ≠ p.toUInt64 := fun he => hqp (UInt32.toUInt64_inj.mp he)
          have hm := h.moved q
          rw [baselineOf] at hm ⊢
          rw [hfind, if_neg hne, hm]
          simp [hqp]

/-- One more point: no row of another point changes, and the column gets what no row with samples carries. -/
theorem extend (h : PointsBuilt env st newLosses newStalled c es done b) {b' : Build F}
    (hfits : b'.n ≤ b'.out.length) (hrp : b'.rowPoints = b.rowPoints)
    (hbase : BaselineFits st.pairer b'.baseline ∧ ∀ q, baselineOf b'.baseline q =
      if q ∈ done ++ [p] then st.pairer.anomaliesOf q else baselineOf st.pointBaseline q)
    (hrows : ∀ (i : Nat) (e : UInt64 × Stage A), es[i]? = some e → e.2.point ≠ p →
      b.rows[i]? = some (st.stageRow env newLosses newStalled e.2) →
      b'.rows[i]? = some (st.stageRow env newLosses newStalled e.2))
    (hcol : columnOf c b'.rows =
      columnOf c b.rows + if sampledIn es p = 0 then (st.newAnomalies p).get c else 0) :
    PointsBuilt env st newLosses newStalled c es (done ++ [p]) b' where
  fits := hfits
  noted := by rw [hrp]; exact h.noted
  stages i e he hp := by
    simp only [List.mem_append, List.mem_singleton, not_or] at hp
    exact hrows i e he hp.2 (h.stages i e he hp.1)
  baseline := hbase.1
  moved := hbase.2
  column := by
    rw [hcol, h.column]
    simp only [List.map_append, List.map_singleton, List.sum_append, List.sum_singleton]
    omega

/-- What the pass takes for new is what is new. -/
theorem delta (h : PointsBuilt env st newLosses newStalled c es done b) {an : PointAnomalies}
    (hf : st.pairer.points.find p.toUInt64 = some an) (hnew : p ∉ done) :
    an.since (baselineOf b.baseline p) = st.newAnomalies p := by
  have hof : st.pairer.anomaliesOf p = an := by rw [Pairer.anomaliesOf, hf]; rfl
  rw [h.moved, if_neg hnew, newAnomalies, hof]

/-- The row that stands for a point that was not walked yet is the row of one of its stages. -/
theorem carrierRow (h : PointsBuilt env st newLosses newStalled c es done b) {ref : RowRef}
    (hr : b.rowPoints.find p.toUInt64 = some ref) (hnew : p ∉ done) :
    ∃ e : UInt64 × Stage A, es[ref.carrier]? = some e ∧ e.2.point = p ∧
      b.rows[ref.carrier]? = some (st.stageRow env newLosses newStalled e.2) := by
  obtain ⟨e, he, hp⟩ := h.noted.carrier p ref hr
  exact ⟨e, he, hp, h.stages ref.carrier e he (by rw [hp]; exact hnew)⟩

theorem notSampled (h : PointsBuilt env st newLosses newStalled c es done b) {ref : RowRef}
    (hr : b.rowPoints.find p.toUInt64 = some ref) (hsam : ref.hasSamples = false) : sampledIn es p = 0 := by
  by_contra hne
  rw [(h.noted.samples p ref hr).mpr hne] at hsam
  cases hsam

/-- One point: every branch of the pass. -/
theorem step (h : PointsBuilt env st newLosses newStalled c es done b) (hP : st.pairer.points.WF)
    {e : UInt64 × PointAnomalies} (hp : e.1 = p.toUInt64) (hf : st.pairer.points.find p.toUInt64 = some e.2)
    (hnew : p ∉ done) (hle : (baselineOf st.pointBaseline p).Le (st.pairer.anomaliesOf p)) :
    PointsBuilt env st newLosses newStalled c es (done ++ [p]) (st.pointStep env newLosses newStalled b e) := by
  have hp32 : e.1.toUInt32 = p := by rw [hp]; simp
  have hmoved := h.based hP hf hle rfl
  have hstep := pointStep_cases env st newLosses newStalled h.fits hp32 (h.delta hf hnew)
  obtain ⟨hfits, hrp, hbl, hcases⟩ := hstep
  have hany : (st.newAnomalies p).any = true → e.2.any = true := fun hd => any_of_since (h.delta hf hnew ▸ hd)
  have hbase : (st.pointStep env newLosses newStalled b e).baseline =
      if (st.newAnomalies p).any then moveBaseline b.baseline p e.2 else b.baseline := by
    rw [hbl]
    cases hd : (st.newAnomalies p).any with
    | false => simp
    | true => rw [hany hd]; rfl
  rw [← hbase] at hmoved
  rcases hcases with ⟨ha, hrows⟩ | ⟨ha, hr, hrows⟩ | ⟨ref, ha, hr, hcond, hrows⟩ | ⟨ref, ha, hr, hsam, hd, hrows⟩
  · -- nothing ever went wrong on this point
    have hnone : (st.newAnomalies p).any = false := by
      cases hd : (st.newAnomalies p).any with
      | false => rfl
      | true => rw [hany hd] at ha; cases ha
    refine h.extend hfits hrp hmoved (fun _ _ _ _ hi => by rw [hrows]; exact hi) ?_
    rw [hrows, PointAnomalies.get_of_not_any hnone]
    split <;> rfl
  · -- no stage of the point at all: a row of its own
    have hzero := sampledIn_eq_zero (h.noted.absent p hr)
    refine h.extend hfits hrp hmoved (fun i e' _ _ hi => ?_) ?_
    · rw [hrows, List.getElem?_append_left (List.getElem?_eq_some_iff.mp hi).1]
      exact hi
    · rw [hrows, columnOf_append, weight_anomalyRow, if_pos hzero]
  · have hsam := h.noted.samples p ref hr
    refine h.extend hfits hrp hmoved (fun i e' _ _ hi => by rw [hrows]; exact hi) ?_
    rw [hrows]
    split
    · rename_i hzero
      -- the point has no samples, so there was nothing new
      rcases hcond with hhas | hd
      · exact absurd hzero (hsam.mp hhas)
      · rw [PointAnomalies.get_of_not_any hd]
        omega
    · rfl
  · obtain ⟨ec, hec, hpc, hrow⟩ := h.carrierRow hr hnew
    have hzero := h.notSampled hr hsam
    have hcount := count_of_notSampled hec (by rw [hpc]; exact hzero)
    refine h.extend hfits hrp hmoved (fun i e' hi hne hrow' => ?_) ?_
    · have hic : ref.carrier ≠ i := by
        rintro rfl
        rw [hec] at hi
        cases hi
        exact hne hpc
      rw [hrows, List.getElem?_modify, hrow']
      simp [hic]
    · rw [hrows, columnOf_modify c _ hrow (by rw [weight_stageRow, if_neg (by simpa using hcount)]), if_pos hzero]
      congr 1
      simp only [weight, written, Bool.not_true, Bool.and_false, Bool.not_false, if_true]
      rw [stageRow, get_toStats, hpc]
      rfl

/-- The points of a list of counters, as they stand in the table. -/
theorem fold (hP : st.pairer.PointsKept) (todo : List (UInt64 × PointAnomalies))
    (h : PointsBuilt env st newLosses newStalled c es done b)
    (hle : ∀ p, (baselineOf st.pointBaseline p).Le (st.pairer.anomaliesOf p))
    (htodo : ∀ e ∈ todo, st.pairer.points.find e.1 = some e.2)
    (hnodup : (done ++ todo.map fun e => e.1.toUInt32).Nodup) :
    PointsBuilt env st newLosses newStalled c es (done ++ todo.map fun e => e.1.toUInt32)
      (todo.foldl (st.pointStep env newLosses newStalled) b) := by
  induction todo generalizing done b with
  | nil => simpa using h
  | cons e todo ih =>
      have hf := htodo e List.mem_cons_self
      have hkey := hP.keyed e.1 e.2 hf
      rw [List.map_cons, List.append_cons] at hnodup ⊢
      have hnew : e.1.toUInt32 ∉ done := by
        intro hmem
        exact (List.nodup_append.mp (List.nodup_append.mp hnodup).1).2.2 _ hmem _ (by simp) rfl
      exact ih (h.step hP.wf hkey (by rw [← hkey]; exact hf) hnew (hle _))
        (fun e' he' => htodo e' (List.mem_cons_of_mem _ he')) hnodup

end PointsBuilt

theorem foldl_pointStep_rowPoints (es : List (UInt64 × PointAnomalies)) (b : Build F) :
    (es.foldl (st.pointStep env newLosses newStalled) b).rowPoints = b.rowPoints := by
  induction es generalizing b with
  | nil => rfl
  | cons e es ih =>
      refine (ih _).trans ?_
      unfold pointStep
      simp only
      split
      · split
        · split <;> rfl
        · split <;> split <;> rfl
      · rfl

/-! ## The three passes -/

/-- The points that have counters. -/
def pointList (P : Pairer A) : List UInt32 := P.points.entries.map fun e => e.1.toUInt32

omit [Accum A] in
theorem pointList_nodup {P : Pairer A} (h : P.PointsKept) : (pointList P).Nodup := by
  have hkeys := OpenMap.entries_keys_nodup h.wf
  refine List.Nodup.of_map UInt32.toUInt64 ?_
  have hmap : (pointList P).map UInt32.toUInt64 = P.points.entries.map Prod.fst := by
    rw [pointList, List.map_map]
    refine List.map_congr_left fun e he => ?_
    exact (h.keyed e.1 e.2 ((OpenMap.find_eq_some h.wf).mpr he)).symm
  rw [hmap]
  exact hkeys

/-- What a flush leaves of its vector and tables. -/
structure RowsBuilt (c : Counter) : Prop where
  baseline : BaselineFits st.pairer (st.built env newLosses newStalled st.buildRows).baseline
  moved : ∀ p, baselineOf (st.built env newLosses newStalled st.buildRows).baseline p = st.pairer.anomaliesOf p
  rowPoints : (st.built env newLosses newStalled st.buildRows).rowPoints.WF ∧
    (st.built env newLosses newStalled st.buildRows).rowPoints.maxEntries = st.rowPoints.maxEntries
  column : columnOf c (st.built env newLosses newStalled st.buildRows).rows =
    (st.pairer.stages.entries.map fun e =>
      if Accum.count e.2.interval ≠ 0 then (st.newAnomalies e.2.point).get c else 0).sum +
    ((pointList st.pairer).map fun p =>
      if sampledIn st.pairer.stages.entries p = 0 then (st.newAnomalies p).get c else 0).sum +
    (st.pairer.overflow.since st.overflowBaseline).get c

/-- What every flush finds. -/
structure FlushReady : Prop where
  stages : st.pairer.stages.WF
  kept : st.pairer.PointsKept
  rowPoints : st.rowPoints.WF ∧ st.rowPoints.maxEntries = st.pairer.stages.maxEntries
  baseline : BaselineFits st.pairer st.pointBaseline
  grown : ∀ p, (baselineOf st.pointBaseline p).Le (st.pairer.anomaliesOf p)

/-- The vector after the first pass. -/
def afterStages : Build F :=
  st.pairer.stages.entries.foldl (st.stageStep env newLosses newStalled)
    ⟨st.buildRows, 0, st.rowPoints.clear, st.pointBaseline⟩

variable {st}

theorem FlushReady.stagesBuilt (h : FlushReady st) :
    StagesBuilt env st newLosses newStalled st.pairer.stages.entries (st.afterStages env newLosses newStalled) ∧
      (st.afterStages env newLosses newStalled).rowPoints.maxEntries = st.rowPoints.maxEntries ∧
      (st.afterStages env newLosses newStalled).baseline = st.pointBaseline := by
  have hstart : StagesBuilt env st newLosses newStalled []
      (⟨st.buildRows, 0, st.rowPoints.clear, st.pointBaseline⟩ : Build F) :=
    { fits := Nat.zero_le _
      rows := rfl
      noted :=
        { wf := OpenMap.wf_clear h.rowPoints.1
          keyed := fun k ref hk => by rw [OpenMap.find_clear h.rowPoints.1] at hk; cases hk
          absent := fun _ _ e he => by cases he
          carrier := fun p ref hk => by rw [OpenMap.find_clear h.rowPoints.1] at hk; cases hk
          samples := fun p ref hk => by rw [OpenMap.find_clear h.rowPoints.1] at hk; cases hk } }
  have hroom : ([] ++ st.pairer.stages.entries).length ≤
      (⟨st.buildRows, 0, st.rowPoints.clear, st.pointBaseline⟩ : Build F).rowPoints.maxEntries := by
    have hlen : st.pairer.stages.entries.length = st.pairer.stages.size := h.stages.size_eq
    have hle := h.stages.size_le
    have hmax : (⟨st.buildRows, 0, st.rowPoints.clear, st.pointBaseline⟩ : Build F).rowPoints.maxEntries =
      st.rowPoints.maxEntries := rfl
    rw [hmax, h.rowPoints.2, List.nil_append]
    omega
  obtain ⟨hs, hmax, hbase⟩ := hstart.fold env st newLosses newStalled st.pairer.stages.entries hroom
  rw [List.nil_append] at hs
  exact ⟨hs, hmax, hbase⟩

theorem FlushReady.pointsStart (h : FlushReady st) (c : Counter) :
    PointsBuilt env st newLosses newStalled c st.pairer.stages.entries [] (st.afterStages env newLosses newStalled) := by
  obtain ⟨hs, -, hbase⟩ := h.stagesBuilt env newLosses newStalled
  exact
    { fits := hs.fits
      noted := hs.noted
      stages := fun i e he _ => by rw [hs.rows, List.getElem?_map, he]; rfl
      baseline := by rw [hbase]; exact h.baseline
      moved := fun p => by rw [hbase]; simp
      column := by rw [hs.rows]; simp }

theorem FlushReady.built (h : FlushReady st) (c : Counter) : RowsBuilt env st newLosses newStalled c := by
  set es := st.pairer.stages.entries with hes
  obtain ⟨hs, hmax, -⟩ := h.stagesBuilt env newLosses newStalled
  set b₁ := st.afterStages env newLosses newStalled with hb₁
  have hp₀ := h.pointsStart env newLosses newStalled c
  have hp := hp₀.fold h.kept st.pairer.points.entries h.grown
    (fun e he => (OpenMap.find_eq_some h.kept.wf).mpr he)
    (by rw [List.nil_append]; exact pointList_nodup h.kept)
  rw [List.nil_append] at hp
  set b₂ := st.pairer.points.entries.foldl (st.pointStep env newLosses newStalled) b₁ with hb₂
  have hbuilt : st.built env newLosses newStalled st.buildRows =
      st.overflowStep env newLosses newStalled b₂ := rfl
  -- the overflow row touches neither table
  have hover : (st.overflowStep env newLosses newStalled b₂).baseline = b₂.baseline ∧
      (st.overflowStep env newLosses newStalled b₂).rowPoints = b₂.rowPoints ∧
      columnOf c (st.overflowStep env newLosses newStalled b₂).rows =
        columnOf c b₂.rows + (st.pairer.overflow.since st.overflowBaseline).get c := by
    unfold overflowStep
    by_cases hany : st.pairer.overflow.any
    · simp only [if_pos hany]
      obtain ⟨hput, -⟩ := Build.rows_putRow hp.fits (st.anomalyRow env newLosses newStalled 0 "overflow" true
        (st.pairer.overflow.since st.overflowBaseline) st.pairer.overflow)
      exact ⟨rfl, rfl, by rw [hput, columnOf_append, weight_anomalyRow]⟩
    · simp only [if_neg hany]
      have h0 := PointAnomalies.get_of_not_any (by simpa using hany : st.pairer.overflow.any = false) c
      refine ⟨trivial, trivial, ?_⟩
      rw [PointAnomalies.get_since, h0, Nat.zero_sub, Nat.add_zero]
  refine ⟨?_, fun p => ?_, ?_, ?_⟩
  · rw [hbuilt, hover.1]; exact hp.baseline
  · rw [hbuilt, hover.1, hp.moved]
    split
    · rfl
    · rename_i hnot
      have hnone : st.pairer.points.find p.toUInt64 = none := by
        cases hf : st.pairer.points.find p.toUInt64 with
        | none => rfl
        | some a =>
            have hmem := List.mem_map_of_mem (f := fun e : UInt64 × PointAnomalies => e.1.toUInt32)
              ((OpenMap.find_eq_some h.kept.wf).mp hf)
            simp only [UInt32.toUInt32_toUInt64] at hmem
            exact absurd hmem hnot
      have hbnone : st.pointBaseline.find p.toUInt64 = none := by
        cases hf : st.pointBaseline.find p.toUInt64 with
        | none => rfl
        | some a =>
            obtain ⟨a', ha'⟩ := h.baseline.keyed _ _ hf
            rw [hnone] at ha'
            cases ha'
      rw [baselineOf, hbnone, Pairer.anomaliesOf, hnone]
  · rw [hbuilt, hover.2.1]
    exact ⟨hp.noted.wf, by rw [hb₂, foldl_pointStep_rowPoints, hmax]⟩
  · rw [hbuilt, hover.2.2, hp.column]
    congr 2
    rw [columnOf, List.map_map]
    congr 1
    exact List.map_congr_left fun e _ => weight_stageRow env st newLosses newStalled c e.2

end Reporter

end SlickPerfmon
