import SlickPerfmon.Pairing.StageSamples
import SlickPerfmon.Report.ColumnSum

/-!
# Totals, values and transitions apart

Every stage is of one of three kinds, told by its steps, and each of its two accumulators is built from samples of
that kind alone: what an open span can hold is what the stamps since its begin have left there.
-/

namespace SlickPerfmon

open Library

/-- What is done to a pairer between two calls of `reset`. -/
inductive PairerOp
  | setOverhead (cycles : UInt64)
  | call (c : Call)
  /-- What a flush does to each stage while it builds the rows. -/
  | mergeIntervals

namespace PairerOp

def isCall : PairerOp → Option Call
  | .call c => some c
  | _ => none

end PairerOp

/-- The overhead set last. -/
def overheadIn (ops : List PairerOp) : UInt64 :=
  ops.foldl (fun overhead op => match op with
    | .setOverhead cycles => cycles
    | _ => overhead) 0

/-- The stamps of a key, in order. -/
def stampsOf (key : UInt64) (ops : List PairerOp) : List Sample := Pairer.spanStamps key (ops.filterMap PairerOp.isCall)

section Runs

variable {A : Type} [Accum A] (H : HeapLib)

def Pairer.operate (P : Pairer A) : PairerOp → Pairer A
  | .setOverhead cycles => P.setOverhead cycles
  | .call c => P.call H c
  | .mergeIntervals => { P with stages := P.stages.forEach fun _ => Reporter.merged }

def Pairer.operateAll (P : Pairer A) (ops : List PairerOp) : Pairer A := ops.foldl (operate H) P

end Runs

/-! ## What a run has to give a stage -/

/-- A span in a run: the last begin of its key, and the stamps of the key since, none of which ended it. -/
structure SpanIn (ops : List PairerOp) (b : Sample) (steps : List Sample) : Prop where
  «begin» : b.step = kBeginStep
  since : ∃ before mid, ops = before ++ .call (.event b) :: mid ∧ steps = stampsOf b.key mid
  inner : ∀ s ∈ steps, s.step ≠ kBeginStep ∧ s.step ≠ kEndStep
  sorted : Pairer.Sorted b steps

/-- The raw value of a value sample of the point. -/
def IsValue (ops : List PairerOp) (p : UInt32) (v : UInt64) : Prop :=
  ∃ past s rest, ops = past ++ .call (.event s) :: rest ∧ s.isStamp = false ∧ s.point = p ∧ v = s.timestamp

/-- From the begin of a span of the point to its end, less the overhead of its transitions. -/
def IsTotal (ops : List PairerOp) (p : UInt32) (v : UInt64) : Prop :=
  ∃ past e rest b steps, ops = past ++ .call (.event e) :: rest ∧ SpanIn past b steps ∧ b.point = p ∧
    e.key = b.key ∧ e.step = kEndStep ∧ Pairer.Sorted b (steps ++ [e]) ∧
    v = (Pairer.totalMeasure b steps e).stored (overheadIn past)

/-- From one stamp of a span of the point to the next one, less the overhead of one transition. -/
def IsDifference (ops : List PairerOp) (p : UInt32) (f t : UInt8) (v : UInt64) : Prop :=
  ∃ past c rest b steps, ops = past ++ .call (.event c) :: rest ∧ SpanIn past b steps ∧ b.point = p ∧
    c.key = b.key ∧ c.isStamp = true ∧ c.step ≠ kBeginStep ∧ Pairer.Sorted b (steps ++ [c]) ∧
    (Pairer.lastStamp b steps).step = f ∧ c.step = t ∧
    v = (⟨f, t, c.timestamp - (Pairer.lastStamp b steps).timestamp, 1⟩ : Pairer.Measurement).stored (overheadIn past)

/-- A sample of the run, with the steps of the stage it goes to. -/
inductive Sampled (ops : List PairerOp) (p : UInt32) : UInt8 → UInt8 → UInt64 → Prop
  | value {v : UInt64} (h : IsValue ops p v) : Sampled ops p kValueStep kValueStep v
  | total {v : UInt64} (h : IsTotal ops p v) : Sampled ops p kBeginStep kBeginStep v
  | difference {f t : UInt8} {v : UInt64} (h : IsDifference ops p f t v) : Sampled ops p f t v

/-- The steps of a transition. -/
def IsTransition (f t : UInt8) : Prop := (f ≠ kValueStep ∧ f ≠ kEndStep) ∧ t ≠ kBeginStep ∧ t ≠ kValueStep

def StageKind (f t : UInt8) : Prop :=
  (f = kBeginStep ∧ t = kBeginStep) ∨ (f = kValueStep ∧ t = kValueStep) ∨ IsTransition f t

/-- An accumulator that was fed nothing but such samples, wherever they were cut. -/
inductive Accum.Holds {A : Type} [Accum A] (Q : UInt64 → Prop) : A → Prop
  | empty : Holds Q Accum.empty
  | add {a : A} {v : UInt64} (h : Holds Q a) (hv : Q v) : Holds Q (Accum.add a v)
  | clear {a : A} (h : Holds Q a) : Holds Q (Accum.clear a)
  | merge {a dst : A} (h : Holds Q a) (hdst : Holds Q dst) : Holds Q (Accum.mergeInto a dst)

theorem Accum.Holds.mono {A : Type} [Accum A] {Q Q' : UInt64 → Prop} {a : A} (h : Holds Q a) (hQ : ∀ v, Q v → Q' v) :
    Holds Q' a := by
  induction h with
  | empty => exact .empty
  | add _ hv ih => exact ih.add (hQ _ hv)
  | clear _ ih => exact ih.clear
  | merge _ _ ih ihdst => exact ih.merge ihdst

/-! ## A longer run has the same samples -/

section Grow

variable {ops : List PairerOp} {p : UInt32} {f t : UInt8} {v : UInt64}

theorem IsValue.grow (h : IsValue ops p v) (more : List PairerOp) : IsValue (ops ++ more) p v := by
  obtain ⟨past, s, rest, rfl, h⟩ := h
  exact ⟨past, s, rest ++ more, by simp, h⟩

theorem IsTotal.grow (h : IsTotal ops p v) (more : List PairerOp) : IsTotal (ops ++ more) p v := by
  obtain ⟨past, e, rest, b, steps, rfl, h⟩ := h
  exact ⟨past, e, rest ++ more, b, steps, by simp, h⟩

theorem IsDifference.grow (h : IsDifference ops p f t v) (more : List PairerOp) :
    IsDifference (ops ++ more) p f t v := by
  obtain ⟨past, c, rest, b, steps, rfl, h⟩ := h
  exact ⟨past, c, rest ++ more, b, steps, by simp, h⟩

theorem Sampled.grow (h : Sampled ops p f t v) (more : List PairerOp) : Sampled (ops ++ more) p f t v := by
  cases h with
  | value h => exact .value (h.grow more)
  | total h => exact .total (h.grow more)
  | difference h => exact .difference (h.grow more)

end Grow

/-! ## The stamps of a span -/

theorem stampsOf_append (key : UInt64) (ops more : List PairerOp) :
    stampsOf key (ops ++ more) = stampsOf key ops ++ stampsOf key more := by
  rw [stampsOf, List.filterMap_append, Pairer.spanStamps, List.filterMap_append]
  rfl

theorem mem_stampsOf {key : UInt64} {ops : List PairerOp} {s : Sample} (h : s ∈ stampsOf key ops) :
    s.isStamp = true ∧ s.key = key := by
  obtain ⟨c, -, hc⟩ := List.mem_filterMap.mp h
  cases c with
  | event s' =>
      simp only [Option.ite_none_right_eq_some, Option.some.injEq] at hc
      obtain ⟨hs, rfl⟩ := hc
      exact hs
  | sweep nowTsc maxAgeCycles => cases hc
  | abandonAll => cases hc
  | clearIntervals => cases hc

theorem step_ne_value {s : Sample} (h : s.isStamp = true) : s.step ≠ kValueStep := Sample.isStamp_iff.mp h

namespace SpanIn

variable {ops : List PairerOp} {b : Sample} {steps : List Sample}

/-- The last stamp of an open span is its begin or a step, and neither an end nor a value. -/
theorem lastStamp_step (h : SpanIn ops b steps) :
    (Pairer.lastStamp b steps).step ≠ kValueStep ∧ (Pairer.lastStamp b steps).step ≠ kEndStep := by
  rcases List.mem_cons.mp (Pairer.lastStamp_mem b steps) with heq | hmem
  · rw [heq, h.«begin»]
    exact ⟨by decide, by decide⟩
  · obtain ⟨before, mid, -, rfl⟩ := h.since
    exact ⟨step_ne_value (mem_stampsOf hmem).1, (h.inner _ hmem).2⟩

theorem grow (h : SpanIn ops b steps) {op : PairerOp} (hop : stampsOf b.key [op] = []) :
    SpanIn (ops ++ [op]) b steps := by
  obtain ⟨before, mid, rfl, rfl⟩ := h.since
  refine ⟨h.«begin», ⟨before, mid ++ [op], by simp, ?_⟩, h.inner, h.sorted⟩
  rw [stampsOf_append, hop, List.append_nil]

/-- A step that is taken is the span's next stamp. -/
theorem step (h : SpanIn ops b steps) {s : Sample} (hs : s.isStamp = true) (hkey : s.key = b.key)
    (hb : s.step ≠ kBeginStep) (he : s.step ≠ kEndStep) (hle : (Pairer.lastStamp b steps).timestamp ≤ s.timestamp) :
    SpanIn (ops ++ [.call (.event s)]) b (steps ++ [s]) := by
  obtain ⟨before, mid, rfl, rfl⟩ := h.since
  have hone : stampsOf b.key [.call (.event s)] = [s] := by simp [stampsOf, PairerOp.isCall, Pairer.spanStamps, hs, hkey]
  refine ⟨h.«begin», ⟨before, mid ++ [.call (.event s)], by simp, ?_⟩, fun s' hs' => ?_, h.sorted.append hle⟩
  · rw [stampsOf_append, hone]
  · rcases List.mem_append.mp hs' with hold | hnew
    · exact h.inner s' hold
    · rw [List.mem_singleton.mp hnew]
      exact ⟨hb, he⟩

theorem start (ops : List PairerOp) {b : Sample} (hb : b.step = kBeginStep) :
    SpanIn (ops ++ [.call (.event b)]) b [] :=
  ⟨hb, ⟨ops, [], rfl, rfl⟩, fun _ hs => absurd hs List.not_mem_nil, List.pairwise_singleton _ _⟩

end SpanIn

theorem IsDifference.transition {ops : List PairerOp} {p : UInt32} {f t : UInt8} {v : UInt64}
    (h : IsDifference ops p f t v) : IsTransition f t := by
  obtain ⟨past, c, rest, b, steps, -, hspan, -, -, hs, hb, -, rfl, rfl, -⟩ := h
  exact ⟨hspan.lastStamp_step, hb, step_ne_value hs⟩

theorem Sampled.kind {ops : List PairerOp} {p : UInt32} {f t : UInt8} {v : UInt64} (h : Sampled ops p f t v) :
    StageKind f t := by
  cases h with
  | value h => exact Or.inr (Or.inl ⟨rfl, rfl⟩)
  | total h => exact Or.inl ⟨rfl, rfl⟩
  | difference h => exact Or.inr (Or.inr h.transition)

/-! ## What the pairer keeps -/

namespace Pairer

/-- What a span is after its begin and the steps since. -/
def spanOf (b : Sample) (steps : List Sample) : OpenSpan :=
  { startTsc := b.timestamp
    lastTsc := (lastStamp b steps).timestamp
    seenTsc := (lastStamp b steps).timestamp
    transitions := UInt32.ofNat steps.length
    lastStep := (lastStamp b steps).step }

variable {A : Type} [Accum A]

/-- A stage was made for samples of its kind and holds only these. -/
structure StageKept (ops : List PairerOp) (g : Stage A) : Prop where
  kind : StageKind g.fromStep g.toStep
  interval : Accum.Holds (Sampled ops g.point g.fromStep g.toStep) g.interval
  cumulative : Accum.Holds (Sampled ops g.point g.fromStep g.toStep) g.cumulative

/-- Every open span is what its stamps made of it, and every stage holds what it should. -/
structure Separated (ops : List PairerOp) (P : Pairer A) : Prop where
  overhead : P.overheadCycles = overheadIn ops
  spans : ∀ key sp, P.spans.find key = some sp → ∃ b steps, SpanIn ops b steps ∧ b.key = key ∧ sp = spanOf b steps
  stages : ∀ key g, P.stages.find key = some g → StageKept ops g

variable {ops : List PairerOp} {P : Pairer A}

theorem StageKept.grow {g : Stage A} (h : StageKept ops g) (more : List PairerOp) : StageKept (ops ++ more) g :=
  ⟨h.kind, h.interval.mono fun _ hv => hv.grow more, h.cumulative.mono fun _ hv => hv.grow more⟩

theorem StageKept.addSample {g : Stage A} (h : StageKept ops g) {v : UInt64}
    (hv : Sampled ops g.point g.fromStep g.toStep v) : StageKept ops (g.addSample v) :=
  ⟨h.kind, h.interval.add hv, h.cumulative⟩

theorem StageKept.fresh {p : UInt32} {f t : UInt8} (hkind : StageKind f t) :
    StageKept ops (Stage.fresh p f t : Stage A) := ⟨hkind, .empty, .empty⟩

theorem StageKept.clearInterval {g : Stage A} (h : StageKept ops g) : StageKept ops g.clearInterval :=
  ⟨h.kind, h.interval.clear, h.cumulative⟩

theorem StageKept.merged {g : Stage A} (h : StageKept ops g) : StageKept ops (Reporter.merged g) :=
  ⟨h.kind, h.interval, h.interval.merge h.cumulative⟩

/-! ### The stages -/

theorem record_kept (hP : P.WF) (hk : P.StagesKeyed) (h : ∀ key g, P.stages.find key = some g → StageKept ops g)
    {p : UInt32} {m : Measurement} (hm : Sampled ops p m.fromStep m.toStep (m.stored P.overheadCycles)) :
    ∀ key g, (P.record p m.fromStep m.toStep m.cycles m.transitions).stages.find key = some g → StageKept ops g := by
  intro key g' hg'
  rcases (record_spec hP hk p m.fromStep m.toStep m.cycles m.transitions).once with
    ⟨g, ⟨hp, hf, ht⟩, hold, hnew, -, -⟩ | ⟨-, -, hst, -, -, -⟩
  · rw [hnew] at hg'
    split at hg'
    · cases hg'
      have hkept : StageKept ops g := by
        rcases hold with hold | ⟨-, rfl⟩
        · exact h _ g hold
        · exact StageKept.fresh hm.kind
      refine hkept.addSample ?_
      rw [hp, hf, ht]
      exact hm
    · exact h key g' hg'
  · rw [hst] at hg'
    exact h key g' hg'

theorem recordAll_kept (hP : P.WF) (hk : P.StagesKeyed) (h : ∀ key g, P.stages.find key = some g → StageKept ops g)
    {p : UInt32} {ms : List Measurement}
    (hms : ∀ m ∈ ms, Sampled ops p m.fromStep m.toStep (m.stored P.overheadCycles)) :
    ∀ key g, (P.recordAll p ms).stages.find key = some g → StageKept ops g := by
  induction ms generalizing P with
  | nil => exact h
  | cons m ms ih =>
      refine ih (wf_record hP hk p m.fromStep m.toStep m.cycles m.transitions)
        (record_spec hP hk p m.fromStep m.toStep m.cycles m.transitions).keyed
        (record_kept hP hk h (hms m List.mem_cons_self)) fun m' hm' => ?_
      rw [record_overheadCycles]
      exact hms m' (List.mem_cons_of_mem _ hm')

/-- What an event asks to be recorded is a value, or comes of the span the stamp continues. -/
theorem Separated.measures (h : Separated ops P) (s : Sample) :
    ∀ m ∈ P.measures s, Sampled (ops ++ [.call (.event s)]) s.point m.fromStep m.toStep (m.stored P.overheadCycles) := by
  intro m hm
  unfold Pairer.measures at hm
  cases hs : s.isStamp with
  | false =>
      rw [if_pos hs, List.mem_singleton] at hm
      subst hm
      rw [stored_value]
      exact .value ⟨ops, s, [], rfl, hs, rfl, rfl⟩
  | true =>
      rw [if_neg (by simp [hs])] at hm
      cases ha : P.accepts s with
      | none =>
          rw [ha] at hm
          cases hm
      | some sp =>
          rw [ha] at hm
          obtain ⟨-, hb, hf, hlt⟩ := accepts_eq_some ha
          obtain ⟨b, steps, hspan, hkey, rfl⟩ := h.spans s.key sp hf
          have hpoint : b.point = s.point := (spanKey_inj b.seq_lt s.seq_lt hkey).1
          have hsorted : Sorted b (steps ++ [s]) := hspan.sorted.append (UInt64.not_lt.mp hlt)
          have hdifference : Sampled (ops ++ [.call (.event s)]) s.point (lastStamp b steps).step s.step
              ((⟨(lastStamp b steps).step, s.step, s.timestamp - (lastStamp b steps).timestamp, 1⟩ :
                Measurement).stored P.overheadCycles) := by
            rw [h.overhead]
            exact .difference ⟨ops, s, [], b, steps, rfl, hspan, hpoint, hkey.symm, hs, hb, hsorted, rfl, rfl, rfl⟩
          by_cases he : s.step = kEndStep
          · simp only [he, if_true] at hm
            rcases List.mem_append.mp hm with hlast | htotal
            · split at hlast
              · cases hlast
              · rw [List.mem_singleton] at hlast
                subst hlast
                rw [he] at hdifference
                exact hdifference
            · rw [List.mem_singleton] at htotal
              subst htotal
              rw [h.overhead]
              refine .total ⟨ops, s, [], b, steps, rfl, hspan, hpoint, hkey.symm, he, hsorted, ?_⟩
              simp only [totalMeasure, spanOf, UInt32.ofNat_add]
              rfl
          · simp only [he, if_false, List.mem_singleton] at hm
            subst hm
            exact hdifference

/-! ### The spans -/

variable (H : HeapLib)

/-- An operation that takes no stamp of a key leaves its span or ends it. -/
theorem Separated.span_quiet (h : Separated ops P) {op : PairerOp} {P' : Pairer A} {key : UInt64}
    (hop : stampsOf key [op] = []) (hfind : ∀ sp, P'.spans.find key = some sp → P.spans.find key = some sp)
    {sp : OpenSpan} (hsp : P'.spans.find key = some sp) :
    ∃ b steps, SpanIn (ops ++ [op]) b steps ∧ b.key = key ∧ sp = spanOf b steps := by
  obtain ⟨b, steps, hspan, rfl, rfl⟩ := h.spans key sp (hfind sp hsp)
  exact ⟨b, steps, hspan.grow hop, rfl, rfl⟩

/-- A stamp of the key begins a span or is the next stamp of the one that is open. -/
theorem Separated.span_stamp {cfg : Config} {L : Ledger} (hb : Balanced cfg P L) (h : Separated ops P) {s : Sample}
    (hs : s.isStamp = true) {sp : OpenSpan} (hsp : (P.onEvent H s).spans.find s.key = some sp) :
    ∃ b steps, SpanIn (ops ++ [.call (.event s)]) b steps ∧ b.key = s.key ∧ sp = spanOf b steps := by
  by_cases hbegin : s.step = kBeginStep
  · have hopened := (hb.event H s).2.opened hbegin
    refine ⟨s, [], SpanIn.start ops hbegin, rfl, ?_⟩
    rw [← Option.some.inj (hopened.symm.trans hsp), freshSpan, spanOf, lastStamp, hbegin]
    rfl
  · obtain ⟨he, sp₀, -, hf, hle, rfl⟩ := onEvent_own H hb.wf hs hbegin hsp
    obtain ⟨b, steps, hspan, hkey, rfl⟩ := h.spans s.key sp₀ hf
    refine ⟨b, steps ++ [s], hspan.step hs hkey.symm hbegin he hle, hkey, ?_⟩
    simp [spanOf, lastStamp_append, UInt32.ofNat_add]

theorem Separated.spans_operate {cfg : Config} {L : Ledger} (hb : Balanced cfg P L) (h : Separated ops P)
    (op : PairerOp) (key : UInt64) (sp : OpenSpan) (hsp : (P.operate H op).spans.find key = some sp) :
    ∃ b steps, SpanIn (ops ++ [op]) b steps ∧ b.key = key ∧ sp = spanOf b steps := by
  cases op with
  | setOverhead cycles => exact h.span_quiet rfl (fun _ hsp => hsp) hsp
  | mergeIntervals => exact h.span_quiet rfl (fun _ hsp => hsp) hsp
  | call c =>
      rcases call_span (A := A) H key c with ⟨s, rfl, hs, rfl, -⟩ | ⟨hnone, hquiet⟩
      · exact h.span_stamp H hb hs hsp
      · have hop : stampsOf key [.call c] = [] := hnone
        exact h.span_quiet hop ((hquiet P).2 hb.wf) hsp

/-! ### A run -/

theorem balanced_operate {cfg : Config} {L : Ledger} (h : Balanced cfg P L) (op : PairerOp) :
    ∃ L', Balanced cfg (P.operate H op) L' := by
  cases op with
  | setOverhead cycles => exact ⟨L, h.setOverhead cycles⟩
  | call c => exact h.call H c
  | mergeIntervals => exact ⟨L, h.rewriteStages fun _ => ⟨rfl, rfl, rfl⟩⟩

theorem overhead_operate {cfg : Config} {L : Ledger} (hb : Balanced cfg P L) (h : P.overheadCycles = overheadIn ops)
    (op : PairerOp) : (P.operate H op).overheadCycles = overheadIn (ops ++ [op]) := by
  rw [overheadIn, List.foldl_append, ← overheadIn, ← h]
  cases op with
  | setOverhead cycles => rfl
  | call c => exact call_overheadCycles H hb.wf c
  | mergeIntervals => rfl

/-- A rewrite of the stages that keeps each of them. -/
theorem forEach_kept (hP : P.WF) {f : Stage A → Stage A} (hf : ∀ g, StageKept ops g → StageKept ops (f g))
    (h : ∀ key g, P.stages.find key = some g → StageKept ops g) :
    ∀ key g, (P.stages.forEach fun _ => f).find key = some g → StageKept ops g := by
  intro key g hg
  rw [(OpenMap.forEach_spec hP.stages fun _ => f).find, Option.map_eq_some_iff] at hg
  obtain ⟨g₀, hg₀, rfl⟩ := hg
  exact hf g₀ (h key g₀ hg₀)

theorem Separated.stages_operate {cfg : Config} {L : Ledger} (hb : Balanced cfg P L) (h : Separated ops P)
    (op : PairerOp) : ∀ key g, (P.operate H op).stages.find key = some g → StageKept (ops ++ [op]) g := by
  have hgrown : ∀ key g, P.stages.find key = some g → StageKept (ops ++ [op]) g :=
    fun key g hg => (h.stages key g hg).grow [op]
  cases op with
  | setOverhead cycles => exact hgrown
  | mergeIntervals => exact forEach_kept hb.wf (fun _ => StageKept.merged) hgrown
  | call c =>
      cases c with
      | event s =>
          change ∀ key g, (P.onEvent H s).stages.find key = some g → _
          rw [onEvent_recordAll H hb s]
          exact recordAll_kept hb.wf hb.keyed hgrown (h.measures s)
      | sweep nowTsc maxAgeCycles =>
          obtain ⟨removed, hsw⟩ := sweep_spec hb.wf nowTsc maxAgeCycles
          change ∀ key g, (P.sweep nowTsc maxAgeCycles).1.stages.find key = some g → _
          rw [hsw.stages]
          exact hgrown
      | abandonAll =>
          change ∀ key g, P.abandonAll.1.stages.find key = some g → _
          rw [abandonAll_stages]
          exact hgrown
      | clearIntervals => exact forEach_kept hb.wf (fun _ => StageKept.clearInterval) hgrown

theorem separated_operateAll (cfg : Config) (ops : List PairerOp) :
    (∃ L, Balanced cfg ((reset cfg : Pairer A).operateAll H ops) L) ∧
      Separated ops ((reset cfg : Pairer A).operateAll H ops) := by
  induction ops using List.reverseRecOn with
  | nil =>
      refine ⟨⟨{}, balanced_reset cfg⟩, ⟨rfl, fun key sp hsp => ?_, fun key g hg => ?_⟩⟩
      · exact absurd (hsp.symm.trans (OpenMap.find_reset _ key)) (by simp)
      · exact absurd (hg.symm.trans (OpenMap.find_reset _ key)) (by simp)
  | append_singleton ops op ih =>
      obtain ⟨⟨L, hb⟩, h⟩ := ih
      have hlast : (reset cfg : Pairer A).operateAll H (ops ++ [op]) =
          ((reset cfg : Pairer A).operateAll H ops).operate H op := List.foldl_concat ..
      rw [hlast]
      exact ⟨balanced_operate H hb op, overhead_operate H hb h.overhead op, h.spans_operate H hb op, h.stages_operate H hb op⟩

end Pairer

/-! ## Sessions -/

/-- What a step of a session does to the pairer. -/
def SessionStep.ops : SessionStep → List PairerOp
  | .event s => [.call (.event s)]
  | .flush f => (f.sweep.map fun x => .call (.sweep x.1 x.2)).toList ++ [.mergeIntervals, .call .clearIntervals]
  | .abandonAll => [.call .abandonAll]

section Sessions

variable {A F : Type} [Accum A] (H : HeapLib) (env : ReportEnv A F)

theorem Reporter.step_operates (st : Reporter A F) (s : SessionStep) :
    (st.step H env s).pairer = st.pairer.operateAll H s.ops := by
  cases s with
  | event s => rfl
  | abandonAll => rfl
  | flush f =>
      change (st.doFlush env f).pairer = _
      rw [doFlush_pairer, SessionStep.ops, swept]
      cases f.sweep with
      | none => rfl
      | some x => rfl

/-- A session is operations on its pairer. -/
theorem Reporter.session_operates (cfg : Config) (overheadCycles : UInt64) (reports : List (StageReport F))
    (steps : List SessionStep) :
    ((reset cfg overheadCycles reports : Reporter A F).run H env steps).pairer =
      (Pairer.reset cfg).operateAll H (.setOverhead overheadCycles :: steps.flatMap SessionStep.ops) := by
  induction steps using List.reverseRecOn with
  | nil => rfl
  | append_singleton steps s ih =>
      have hlast : (reset cfg overheadCycles reports : Reporter A F).run H env (steps ++ [s]) =
          ((reset cfg overheadCycles reports : Reporter A F).run H env steps).step H env s := List.foldl_concat ..
      rw [hlast, step_operates, ih, List.flatMap_append, List.flatMap_singleton, ← List.cons_append]
      exact List.foldl_append.symm

end Sessions

/-! ## What a stage holds -/

/-- Cuts and merges make no difference: what an accumulator holds is a list of samples. -/
theorem Accum.Holds.feed {A : Type} [Accum A] (hl : Accum.Lawful A) {Q : UInt64 → Prop} {a : A} (h : Holds Q a) :
    ∃ vs, a = Accum.feed vs ∧ ∀ v ∈ vs, Q v := by
  induction h with
  | empty => exact ⟨[], rfl, fun _ hv => absurd hv List.not_mem_nil⟩
  | add _ hv ih =>
      obtain ⟨vs, rfl, hvs⟩ := ih
      refine ⟨vs ++ [_], (Accum.feed_append vs _).symm, fun v' hv' => ?_⟩
      rcases List.mem_append.mp hv' with hold | hnew
      · exact hvs v' hold
      · rw [List.mem_singleton.mp hnew]
        exact hv
  | clear _ ih =>
      obtain ⟨vs, rfl, -⟩ := ih
      exact ⟨[], hl.clear_feed vs, fun _ hv => absurd hv List.not_mem_nil⟩
  | merge _ _ ih ihdst =>
      obtain ⟨ys, rfl, hys⟩ := ih
      obtain ⟨xs, rfl, hxs⟩ := ihdst
      refine ⟨xs ++ ys, hl.merge_feed xs ys, fun v hv => ?_⟩
      rcases List.mem_append.mp hv with hx | hy
      · exact hxs v hx
      · exact hys v hy

/-- All samples of a stage are of the kind its steps say. -/
inductive OneKind (ops : List PairerOp) (p : UInt32) (f t : UInt8) (vs : List UInt64) : Prop
  | totals (hsteps : f = kBeginStep ∧ t = kBeginStep) (h : ∀ v ∈ vs, IsTotal ops p v)
  | values (hsteps : f = kValueStep ∧ t = kValueStep) (h : ∀ v ∈ vs, IsValue ops p v)
  | differences (hsteps : IsTransition f t) (h : ∀ v ∈ vs, IsDifference ops p f t v)

theorem Sampled.cases_kind {ops : List PairerOp} {p : UInt32} {f t : UInt8} {v : UInt64} (h : Sampled ops p f t v) :
    ((f = kBeginStep ∧ t = kBeginStep) ∧ IsTotal ops p v) ∨ ((f = kValueStep ∧ t = kValueStep) ∧ IsValue ops p v) ∨
      (IsTransition f t ∧ IsDifference ops p f t v) := by
  cases h with
  | total h => exact Or.inl ⟨⟨rfl, rfl⟩, h⟩
  | value h => exact Or.inr (Or.inl ⟨⟨rfl, rfl⟩, h⟩)
  | difference h => exact Or.inr (Or.inr ⟨h.transition, h⟩)

theorem not_transition_total : ¬ IsTransition kBeginStep kBeginStep := fun h => h.2.1 rfl

theorem not_transition_value : ¬ IsTransition kValueStep kValueStep := fun h => h.1.1 rfl

theorem total_ne_value {f t : UInt8} (h : f = kBeginStep ∧ t = kBeginStep) : ¬ (f = kValueStep ∧ t = kValueStep) := by
  rw [h.1, h.2]
  decide

/-- No two kinds have the same steps. -/
theorem oneKind_of_sampled {ops : List PairerOp} {p : UInt32} {f t : UInt8} {vs : List UInt64}
    (hkind : StageKind f t) (h : ∀ v ∈ vs, Sampled ops p f t v) : OneKind ops p f t vs := by
  rcases hkind with htotal | hvalue | hsteps
  · refine .totals htotal fun v hv => ?_
    rcases (h v hv).cases_kind with ⟨-, h⟩ | ⟨hvalue, -⟩ | ⟨hsteps, -⟩
    · exact h
    · exact absurd hvalue (total_ne_value htotal)
    · rw [htotal.1, htotal.2] at hsteps
      exact absurd hsteps not_transition_total
  · refine .values hvalue fun v hv => ?_
    rcases (h v hv).cases_kind with ⟨htotal, -⟩ | ⟨-, h⟩ | ⟨hsteps, -⟩
    · exact absurd hvalue (total_ne_value htotal)
    · exact h
    · rw [hvalue.1, hvalue.2] at hsteps
      exact absurd hsteps not_transition_value
  · refine .differences hsteps fun v hv => ?_
    rcases (h v hv).cases_kind with ⟨htotal, -⟩ | ⟨hvalue, -⟩ | ⟨-, h⟩
    · rw [htotal.1, htotal.2] at hsteps
      exact absurd hsteps not_transition_total
    · rw [hvalue.1, hvalue.2] at hsteps
      exact absurd hsteps not_transition_value
    · exact h

/-- A stage of the repository's own accumulators, and the samples in them: those since the last clear, and those the
flushes before merged. -/
def HoldsOneKind {kPrecision : UInt32} (ops : List PairerOp) (g : Stage (Accumulator kPrecision)) : Prop :=
  ∃ since merged, g.interval = Accum.feed since ∧ g.cumulative = Accum.feed merged ∧
    OneKind ops g.point g.fromStep g.toStep (merged ++ since)

/-- After any operations on any samples, every stage sits under the key of its own fields, no two have the same, and
each holds totals of its point, values of its point, or differences between consecutive stamps of one of its spans,
as its steps say. -/
theorem stages_never_mix (H : HeapLib) (kPrecision : UInt32) (cfg : Config) (ops : List PairerOp) :
    let P : Pairer (Accumulator kPrecision) := (Pairer.reset cfg).operateAll H ops
    (∀ e ∈ P.stages.entries, e.1 = stageKey e.2.point e.2.fromStep e.2.toStep ∧ HoldsOneKind ops e.2) ∧
      (P.stages.entries.map fun e => (e.2.point, e.2.fromStep, e.2.toStep)).Nodup := by
  intro P
  obtain ⟨⟨L, hb⟩, h⟩ := Pairer.separated_operateAll (A := Accumulator kPrecision) H cfg ops
  have hfind : ∀ e ∈ P.stages.entries, P.stages.find e.1 = some e.2 := fun e he =>
    (OpenMap.find_eq_some hb.wf.stages).mpr he
  constructor
  · intro e he
    have hkept := h.stages e.1 e.2 (hfind e he)
    refine ⟨hb.keyed e.1 e.2 (hfind e he), ?_⟩
    obtain ⟨since, hsince, hs⟩ := hkept.interval.feed (Accumulator.lawful kPrecision)
    obtain ⟨merged, hmerged, hm⟩ := hkept.cumulative.feed (Accumulator.lawful kPrecision)
    refine ⟨since, merged, hsince, hmerged, oneKind_of_sampled hkept.kind fun v hv => ?_⟩
    rcases List.mem_append.mp hv with hv | hv
    · exact hm v hv
    · exact hs v hv
  · -- entries with the same fields have the same key
    have hnodup := OpenMap.entries_keys_nodup hb.wf.stages
    rw [List.Nodup, List.pairwise_map] at hnodup ⊢
    refine hnodup.imp_of_mem fun {e e'} he he' hne hsame => hne ?_
    rw [hb.keyed e.1 e.2 (hfind e he), hb.keyed e'.1 e'.2 (hfind e' he')]
    simp only [Prod.mk.injEq] at hsame
    rw [hsame.1, hsame.2.1, hsame.2.2]

end SlickPerfmon
