import SlickPerfmon.Pairing.CompleteSpans
import SlickPerfmon.Pairing.StageSamples

/-!
# What complete spans are charged

The stamps of a span make its calls of `record`: one for each two consecutive stamps when it has a step, and one for the
whole. The samples that a run in order brings to a stage are those of its spans, the stamp overhead taken out.
-/

namespace SlickPerfmon

open Library CompleteSpan Pairer

namespace CompleteSpan

/-- The calls of `record` that its stamps make. -/
def charges (sp : CompleteSpan) : List Measurement :=
  sp.transitions.map (fun r => ⟨r.fromStep, r.toStep, r.cycles, 1⟩) ++
    [⟨kBeginStep, kBeginStep, sp.finish - sp.start, UInt32.ofNat (sp.steps.length + 1)⟩]

end CompleteSpan

/-- What the spans bring to the stage (p, f, t), each sample less `overhead` for each of its transitions. -/
def netSamples (overhead : UInt64) (spans : List CompleteSpan) (p : UInt32) (f t : UInt8) : Multiset UInt64 :=
  (((spans.filter fun sp => sp.point = p).flatMap charges).filter fun m => m.fromStep = f ∧ m.toStep = t).map
    (Measurement.stored overhead)

/-! ## The machine of a key -/

namespace Machine

/-- The calls of `record` for a stamp of the key. -/
def charges (m : Machine) (s : Sample) : List Measurement :=
  match m.span with
  | none => []
  | some sp =>
      if s.step = kBeginStep ∨ s.timestamp < sp.last then []
      else if s.step = kEndStep then
        (if sp.lastStep = kBeginStep then [] else [⟨sp.lastStep, kEndStep, s.timestamp - sp.last, 1⟩]) ++
          [⟨kBeginStep, kBeginStep, s.timestamp - sp.start, UInt32.ofNat sp.transitions + 1⟩]
      else [⟨sp.lastStep, s.step, s.timestamp - sp.last, 1⟩]

/-- Those for some stamps, one after the other. -/
def chargesOf : Machine → List Sample → List Measurement
  | _, [] => []
  | m, s :: ss => m.charges s ++ chargesOf (m.step s) ss

theorem chargesOf_append (m : Machine) (ss ss' : List Sample) :
    m.chargesOf (ss ++ ss') = m.chargesOf ss ++ (ss.foldl Machine.step m).chargesOf ss' := by
  induction ss generalizing m with
  | nil => rfl
  | cons s ss ih => rw [List.cons_append, chargesOf, chargesOf, ih, List.append_assoc, List.foldl_cons]

/-- The rest of a span of which `b` was the last stamp and `n` the number of steps so far. -/
theorem chargesOf_rest {sp : CompleteSpan} {steps : List (UInt64 × UInt8)} (hmem : ∀ c ∈ steps, c ∈ sp.steps)
    {b : UInt64 × UInt8} (hasc : (b :: steps ++ [(sp.finish, kEndStep)]).Pairwise fun x y => x.1 < y.1) {m : Machine}
    {n : Nat} (hlast : b.2 = kBeginStep ↔ n = 0) (hopen : m.span = some ⟨sp.start, b.1, b.2, n⟩) :
    m.chargesOf (steps.map sp.stamp ++ [sp.finishStamp]) =
      ((if n = 0 ∧ steps = [] then [] else differences b (steps ++ [(sp.finish, kEndStep)])).map
        fun r => ⟨r.fromStep, r.toStep, r.cycles, 1⟩) ++
          [⟨kBeginStep, kBeginStep, sp.finish - sp.start, UInt32.ofNat (n + steps.length + 1)⟩] := by
  induction steps generalizing b m n with
  | nil =>
      have hle : ¬ sp.finish < b.1 := by
        have hlt := (List.pairwise_cons.mp hasc).1 (sp.finish, kEndStep) (List.mem_singleton_self _)
        exact UInt64.not_lt.mpr (UInt64.le_of_lt hlt)
      have hend : (sp.finishStamp).step = kEndStep := stamp_step _
      have hts : (sp.finishStamp).timestamp = sp.finish := rfl
      have hne : ¬ (kEndStep = kBeginStep ∨ sp.finish < b.1) := not_or.mpr ⟨by decide, hle⟩
      simp only [List.map_nil, List.nil_append, chargesOf, charges, hopen, hend, hts, if_neg hne, if_true, and_true,
        List.append_nil, List.length_nil, Nat.add_zero, UInt32.ofNat_add, differences]
      by_cases hn : n = 0
      · rw [if_pos hn, if_pos (hlast.mpr hn)]
        rfl
      · rw [if_neg hn, if_neg fun h => hn (hlast.mp h)]
        rfl
  | cons c steps ih =>
      obtain ⟨hb, hrest⟩ := List.pairwise_cons.mp hasc
      obtain ⟨hbegin, hend, -⟩ := step_ne (hmem c List.mem_cons_self)
      have hle : ¬ (sp.stamp c).timestamp < b.1 := UInt64.not_lt.mpr (UInt64.le_of_lt (hb c List.mem_cons_self))
      have hne : ¬ (c.2 = kBeginStep ∨ (sp.stamp c).timestamp < b.1) := not_or.mpr ⟨hbegin, hle⟩
      have hstep : m.step (sp.stamp c) =
          { m with
            span := some ⟨sp.start, c.1, c.2, n + 1⟩
            records := m.records ++ [⟨b.2, c.2, c.1 - b.1⟩] } := by
        simp only [Machine.step, hopen, stamp_step, if_neg hbegin, if_neg hend, if_neg hle]
        rfl
      have hone : m.charges (sp.stamp c) = [⟨b.2, c.2, c.1 - b.1, 1⟩] := by
        simp only [charges, hopen, stamp_step, if_neg hne, if_neg hend]
        rfl
      rw [List.map_cons, List.cons_append, chargesOf, hstep, hone,
        ih (fun x hx => hmem x (List.mem_cons_of_mem _ hx)) hrest (iff_of_false hbegin (Nat.succ_ne_zero n)) rfl]
      simp [differences, Nat.add_comm, Nat.add_left_comm]

/-- A whole span. -/
theorem chargesOf_stamps {sp : CompleteSpan} (hasc : sp.stamps.Pairwise fun x y => x.timestamp < y.timestamp)
    {m : Machine} (hnone : m.span = none) : m.chargesOf sp.stamps = sp.charges := by
  have hbegin : (sp.startStamp).step = kBeginStep := stamp_step _
  have hstep : m.step sp.startStamp = { m with span := some ⟨sp.start, sp.start, kBeginStep, 0⟩ } := by
    simp only [Machine.step, hnone, hbegin, if_true]
    rfl
  have hboundaries : ((sp.start, kBeginStep) :: sp.steps ++ [(sp.finish, kEndStep)]).Pairwise fun x y => x.1 < y.1 := by
    have hstamps : sp.stamps = ((sp.start, kBeginStep) :: sp.steps ++ [(sp.finish, kEndStep)]).map sp.stamp := by
      simp [stamps, startStamp, finishStamp]
    rw [hstamps, List.pairwise_map] at hasc
    exact hasc
  have hfirst : m.charges sp.startStamp = [] := by simp only [charges, hnone]
  rw [stamps, chargesOf, hstep, hfirst, List.nil_append,
    chargesOf_rest (fun _ h => h) hboundaries (iff_of_true rfl rfl) rfl]
  simp only [CompleteSpan.charges, transitions, true_and, Nat.zero_add]

/-- Spans of one key, one after the other. -/
theorem chargesOf_spans {spans : List CompleteSpan}
    (hasc : (spans.flatMap stamps).Pairwise fun x y => x.timestamp < y.timestamp) {m : Machine} (hnone : m.span = none) :
    m.chargesOf (spans.flatMap stamps) = spans.flatMap CompleteSpan.charges := by
  induction spans generalizing m with
  | nil => rfl
  | cons sp spans ih =>
      rw [List.flatMap_cons] at hasc
      obtain ⟨hfirst, hrest, -⟩ := List.pairwise_append.mp hasc
      have hone : Machine.span { m with records := m.records ++ sp.measured } = none := hnone
      rw [List.flatMap_cons, chargesOf_append, chargesOf_stamps hfirst hnone, foldl_stamps hfirst hnone, ih hrest hone,
        List.flatMap_cons]

end Machine

/-- The calls of `record` for the stamps of a key among `ss`. -/
def chargesAt (p q : UInt32) (ss : List Sample) : List Measurement :=
  ({} : Machine).chargesOf (ss.filter (·.isOf p q))

theorem chargesAt_append (p q : UInt32) (ss : List Sample) (s : Sample) :
    chargesAt p q (ss ++ [s]) = chargesAt p q ss ++ if s.isOf p q then (machineAt p q ss).charges s else [] := by
  rw [chargesAt, List.filter_append, Machine.chargesOf_append]
  cases h : s.isOf p q with
  | false => simp [h, Machine.chargesOf, chargesAt]
  | true => simp [h, Machine.chargesOf, chargesAt, machineAt]

/-! ## The pairer -/

section Pairer

variable {A : Type} [Accum A] (H : HeapLib)

/-- A stamp makes the calls that the machine of its key makes. -/
theorem Refines.measures {cfg : Config} {ss : List Sample} {P : Pairer A} (h : Refines cfg ss P) {s : Sample}
    (hs : s.isStamp = true) : P.measures s = (machineAt s.point s.seq ss).charges s := by
  have hfind := h.spans.find s.point s.seq s.seq_lt
  have hkey : spanKey s.point s.seq = s.key := rfl
  rw [hkey] at hfind
  rw [Pairer.measures, if_neg (by simp [hs]), Machine.charges, Pairer.accepts]
  cases hm : (machineAt s.point s.seq ss).span with
  | none =>
      rw [hm] at hfind
      simp [hfind]
  | some sp =>
      rw [hm] at hfind
      by_cases hb : s.step = kBeginStep
      · simp [hb]
      · by_cases hlt : s.timestamp < sp.last
        · simp [hfind, hs, hb, hlt, Span.toOpenSpan, Option.filter]
        · have hnot : ¬ (s.step = kBeginStep ∨ s.timestamp < sp.last) := not_or.mpr ⟨hb, hlt⟩
          have hacc : (if s.isStamp = true ∧ s.step ≠ kBeginStep then
              (P.spans.find s.key).filter fun sp => ¬ s.timestamp < sp.lastTsc else none) = some sp.toOpenSpan := by
            rw [if_pos ⟨hs, hb⟩, hfind]
            simp [Option.filter, Span.toOpenSpan, hlt]
          rw [hacc]
          simp only [if_neg hnot]
          rfl

/-- The samples that a run brings to the stage of a key when each comes less `overhead`. -/
def runSamples (key overhead : UInt64) : Pairer A → List Sample → List UInt64
  | _, [] => []
  | P, s :: ss => samplesOf key overhead s.point (P.measures s) ++ runSamples key overhead (P.onEvent H s) ss

theorem runSamples_append (key overhead : UInt64) (P : Pairer A) (ss : List Sample) (s : Sample) :
    runSamples H key overhead P (ss ++ [s]) = runSamples H key overhead P ss ++
      samplesOf key overhead s.point ((ss.foldl (fun P s => P.onEvent H s) P).measures s) := by
  induction ss generalizing P with
  | nil => simp [runSamples]
  | cons s' ss ih => rw [List.cons_append, runSamples, runSamples, ih, List.append_assoc, List.foldl_cons]

/-- Among the calls of one point, those for a stage. -/
theorem samplesOf_stageKey (overhead : UInt64) (p p' : UInt32) (f t : UInt8) (ms : List Measurement) :
    samplesOf (stageKey p f t) overhead p' ms =
      if p' = p then (ms.filter fun m => m.fromStep = f ∧ m.toStep = t).map (Measurement.stored overhead) else [] := by
  unfold samplesOf
  split
  · rename_i hp
    subst hp
    congr 1
    refine List.filter_congr fun m _ => ?_
    refine decide_eq_decide.mpr ⟨fun h => ?_, ?_⟩
    · obtain ⟨-, hf, ht⟩ := stageKey_inj h
      exact ⟨hf, ht⟩
    · rintro ⟨rfl, rfl⟩
      rfl
  · rename_i hp
    rw [List.map_eq_nil_iff, List.filter_eq_nil_iff]
    intro m _ hkey
    exact hp (stageKey_inj (of_decide_eq_true hkey)).1

/-- The samples of a stage are those of the keys of its point. -/
theorem runSamples_eq_sum (overhead : UInt64) (p : UInt32) (f t : UInt8) {cfg : Config} {ss : List Sample}
    (hfits : Fits cfg ss) (hstamps : ∀ s ∈ ss, s.isStamp = true) :
    (runSamples H (stageKey p f t) overhead (Pairer.reset cfg : Pairer A) ss : Multiset UInt64) =
      ∑ q ∈ allSeqs, ((((chargesAt p q ss).filter fun m => m.fromStep = f ∧ m.toStep = t).map
        (Measurement.stored overhead) : List UInt64) : Multiset UInt64) := by
  induction ss using List.reverseRecOn with
  | nil => exact (Finset.sum_eq_zero fun _ _ => rfl).symm
  | append_singleton ss s ih =>
      have hprefix : Fits cfg ss := fun front hfront =>
        hfits front ((List.mem_inits _ _).mpr (((List.mem_inits _ _).mp hfront).trans (List.prefix_append ss [s])))
      have hs : s.isStamp = true := hstamps s (List.mem_append_right _ (List.mem_singleton_self s))
      have hmeasures := (Refines.run H (A := A) cfg ss hprefix).measures hs
      rw [runSamples_append, hmeasures, samplesOf_stageKey, ← Multiset.coe_add,
        ih hprefix fun s hs => hstamps s (List.mem_append_left _ hs)]
      by_cases hp : s.point = p
      · rw [if_pos hp]
        refine (sum_grow (q := s.seq) (mem_allSeqs.mpr s.seq_lt) (fun q hq => ?_) ?_).symm
        · have hno : s.isOf p q = false := by
            rw [Bool.eq_false_iff]
            exact fun h => hq (isOf_iff.mp h).2.2.symm
          rw [chargesAt_append, hno]
          simp
        · have hyes : s.isOf p s.seq = true := isOf_iff.mpr ⟨hs, hp, rfl⟩
          rw [chargesAt_append, hyes, ← hp]
          simp
      · rw [if_neg hp, Multiset.coe_nil, add_zero]
        refine Finset.sum_congr rfl fun q _ => ?_
        have hno : s.isOf p q = false := by
          rw [Bool.eq_false_iff]
          exact fun h => hp (isOf_iff.mp h).2.1
        rw [chargesAt_append, hno]
        simp

end Pairer

/-! ## Spans in order -/

namespace SpansInOrder

variable {spans : List CompleteSpan} {ss : List Sample}

theorem chargesAt_eq (h : SpansInOrder spans ss) (p q : UInt32) :
    chargesAt p q ss = (spans.filter (·.isOf p q)).flatMap CompleteSpan.charges := by
  rw [chargesAt, h.filter_eq, Machine.chargesOf_spans (h.increasing p q) rfl]

theorem sum_charges (overhead : UInt64) (spans : List CompleteSpan) (p : UInt32) (f t : UInt8) :
    ∑ q ∈ allSeqs, (((((spans.filter (·.isOf p q)).flatMap CompleteSpan.charges).filter
        fun m => m.fromStep = f ∧ m.toStep = t).map (Measurement.stored overhead) : List UInt64) : Multiset UInt64) =
      netSamples overhead spans p f t := by
  induction spans with
  | nil => exact Finset.sum_eq_zero fun _ _ => rfl
  | cons sp spans ih =>
      by_cases hp : sp.point = p
      · rw [sum_grow (F := fun q => (((((spans.filter (·.isOf p q)).flatMap CompleteSpan.charges).filter
            fun m => m.fromStep = f ∧ m.toStep = t).map (Measurement.stored overhead) : List UInt64) : Multiset UInt64))
          (q := sp.seq)
          (d := (((sp.charges.filter fun m => m.fromStep = f ∧ m.toStep = t).map (Measurement.stored overhead) :
            List UInt64) : Multiset UInt64)) (mem_allSeqs.mpr sp.seq_lt), ih]
        · simp [netSamples, hp, add_comm]
        · intro q hq
          have hno : ¬ sp.isOf p q = true := fun h => hq (CompleteSpan.isOf_iff.mp h).2.symm
          simp [hno]
        · have hyes : sp.isOf p sp.seq = true := CompleteSpan.isOf_iff.mpr ⟨hp, rfl⟩
          simp [hyes, add_comm]
      · have hsame : ∀ q, (sp :: spans).filter (·.isOf p q) = spans.filter (·.isOf p q) := fun q => by
          rw [List.filter_cons, if_neg fun h => hp (CompleteSpan.isOf_iff.mp h).1]
        simp only [hsame, ih]
        simp [netSamples, hp]

/-- The samples of a run in order are those of its spans. -/
theorem runSamples_eq {A : Type} [Accum A] (H : HeapLib) (h : SpansInOrder spans ss) {cfg : Config}
    (hopen : ∀ ts, (keysAt spans ts).card ≤ max 1 cfg.maxOpenSpans.toNat)
    (hstages : (spanStages spans).card ≤ max 1 cfg.maxStages.toNat) (overhead : UInt64) (p : UInt32) (f t : UInt8) :
    (runSamples H (stageKey p f t) overhead (Pairer.reset cfg : Pairer A) ss : Multiset UInt64) =
      netSamples overhead spans p f t := by
  rw [runSamples_eq_sum H overhead p f t (h.fits hopen hstages) fun s hs => h.isStamp hs]
  simp only [h.chargesAt_eq]
  exact sum_charges overhead spans p f t

end SpansInOrder

end SlickPerfmon
