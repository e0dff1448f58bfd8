import SlickPerfmon.Pairing.Refinement
import Mathlib.Data.List.Perm.Basic

/-!
# Complete spans

What the machine of a key does with the stamps of spans that were begun, stepped through and ended: each span brings
its total and, when it has a step, one sample for each two consecutive stamps.
-/

namespace SlickPerfmon

/-- A begin, any number of steps and an end, each with its timestamp. -/
structure CompleteSpan where
  point : UInt32
  seq : UInt32
  start : UInt64
  steps : List (UInt64 × UInt8)
  finish : UInt64
  seq_lt : seq.toNat < 2 ^ 24
  steps_between : ∀ b ∈ steps, kBeginStep < b.2 ∧ b.2 ≤ kMaxSpanStep

namespace CompleteSpan

variable (sp : CompleteSpan)

def stamp (b : UInt64 × UInt8) : Sample := ⟨b.1, sp.point, makeEvent b.2 sp.seq⟩

def startStamp : Sample := sp.stamp (sp.start, kBeginStep)

def finishStamp : Sample := sp.stamp (sp.finish, kEndStep)

/-- Its stamps, in order. -/
def stamps : List Sample := sp.startStamp :: (sp.steps.map sp.stamp ++ [sp.finishStamp])

/-- The transitions between consecutive stamps, from `b` on. -/
def differences (b : UInt64 × UInt8) : List (UInt64 × UInt8) → List Transition
  | [] => []
  | c :: rest => ⟨b.2, c.2, c.1 - b.1⟩ :: differences c rest

def transitions : List Transition :=
  if sp.steps = [] then [] else differences (sp.start, kBeginStep) (sp.steps ++ [(sp.finish, kEndStep)])

def total : Transition := ⟨kBeginStep, kBeginStep, sp.finish - sp.start⟩

/-- What the span brings. -/
def measured : List Transition := sp.transitions ++ [sp.total]

/-! ## Its stamps -/

variable {sp}

theorem stamp_step (b : UInt64 × UInt8) : (sp.stamp b).step = b.2 := stepOf_makeEvent sp.seq_lt

theorem stamp_isOf {b : UInt64 × UInt8} (hb : b.2 ≠ kValueStep) (p q : UInt32) :
    (sp.stamp b).isOf p q = true ↔ sp.point = p ∧ sp.seq = q := by
  rw [isOf_iff]
  simp only [Sample.isStamp, isValueEvent, stamp, stepOf_makeEvent sp.seq_lt, Sample.seq, seqOf_makeEvent sp.seq_lt]
  simp [hb]

theorem step_ne {b : UInt64 × UInt8} (hb : b ∈ sp.steps) :
    b.2 ≠ kBeginStep ∧ b.2 ≠ kEndStep ∧ b.2 ≠ kValueStep := by
  obtain ⟨hlo, hhi⟩ := sp.steps_between b hb
  refine ⟨?_, ?_, ?_⟩ <;> rintro he <;> rw [he] at hlo hhi
  · exact absurd hlo (by decide)
  · exact absurd hhi (by decide)
  · exact absurd hhi (by decide)

theorem mem_stamps {s : Sample} (hs : s ∈ sp.stamps) : ∃ b : UInt64 × UInt8, s = sp.stamp b ∧ b.2 ≠ kValueStep := by
  rcases List.mem_cons.mp hs with rfl | hs
  · exact ⟨(sp.start, kBeginStep), rfl, (by decide : kBeginStep ≠ kValueStep)⟩
  · rcases List.mem_append.mp hs with hs | hs
    · obtain ⟨b, hb, rfl⟩ := List.mem_map.mp hs
      exact ⟨b, rfl, (step_ne hb).2.2⟩
    · rw [List.mem_singleton.mp hs]
      exact ⟨(sp.finish, kEndStep), rfl, (by decide : kEndStep ≠ kValueStep)⟩

theorem isOf_of_mem {s : Sample} (hs : s ∈ sp.stamps) (p q : UInt32) :
    s.isOf p q = true ↔ sp.point = p ∧ sp.seq = q := by
  obtain ⟨b, rfl, hb⟩ := mem_stamps hs
  exact stamp_isOf hb p q

theorem isStamp_of_mem {s : Sample} (hs : s ∈ sp.stamps) : s.isStamp = true :=
  (isOf_iff.mp ((isOf_of_mem hs sp.point sp.seq).mpr ⟨rfl, rfl⟩)).1

end CompleteSpan

open CompleteSpan

/-! ## The machine of their key -/

namespace Machine

/-- The rest of a span of which `b` was the last stamp and `n` the number of steps so far. -/
theorem foldl_rest {sp : CompleteSpan} {steps : List (UInt64 × UInt8)} (hmem : ∀ c ∈ steps, c ∈ sp.steps)
    {b : UInt64 × UInt8} (hasc : (b :: steps ++ [(sp.finish, kEndStep)]).Pairwise fun x y => x.1 < y.1) {m : Machine}
    {n : Nat} (hopen : m.span = some ⟨sp.start, b.1, b.2, n⟩) :
    (steps.map sp.stamp ++ [sp.finishStamp]).foldl Machine.step m =
      { m with
        span := none
        records := m.records ++ (if n = 0 ∧ steps = [] then [] else differences b (steps ++ [(sp.finish, kEndStep)])) ++
          [sp.total] } := by
  induction steps generalizing b m n with
  | nil =>
      have hle : ¬ sp.finish < b.1 := by
        have hlt := (List.pairwise_cons.mp hasc).1 (sp.finish, kEndStep) (List.mem_singleton_self _)
        exact UInt64.not_lt.mpr (UInt64.le_of_lt hlt)
      have hend : (sp.finishStamp).step = kEndStep := stamp_step _
      have hts : (sp.finishStamp).timestamp = sp.finish := rfl
      simp only [List.map_nil, List.nil_append, List.foldl_cons, List.foldl_nil, Machine.step, hopen, hend, hts,
        if_neg (by decide : kEndStep ≠ kBeginStep), if_neg hle, if_true, closing, and_true, differences, total]
      rw [List.append_assoc]
  | cons c steps ih =>
      obtain ⟨hb, hrest⟩ := List.pairwise_cons.mp hasc
      obtain ⟨hbegin, hend, -⟩ := step_ne (hmem c List.mem_cons_self)
      have hle : ¬ (sp.stamp c).timestamp < b.1 := UInt64.not_lt.mpr (UInt64.le_of_lt (hb c List.mem_cons_self))
      have hstep : m.step (sp.stamp c) =
          { m with
            span := some ⟨sp.start, c.1, c.2, n + 1⟩
            records := m.records ++ [⟨b.2, c.2, c.1 - b.1⟩] } := by
        simp only [Machine.step, hopen, stamp_step, if_neg hbegin, if_neg hend, if_neg hle]
        rfl
      rw [List.map_cons, List.cons_append, List.foldl_cons, hstep,
        ih (fun x hx => hmem x (List.mem_cons_of_mem _ hx)) hrest rfl]
      simp [differences]

/-- A whole span. -/
theorem foldl_stamps {sp : CompleteSpan} (hasc : sp.stamps.Pairwise fun x y => x.timestamp < y.timestamp) {m : Machine}
    (hnone : m.span = none) :
    sp.stamps.foldl Machine.step m = { m with records := m.records ++ sp.measured } := by
  have hstep : m.step sp.startStamp = { m with span := some ⟨sp.start, sp.start, kBeginStep, 0⟩ } := by
    have hbegin : (sp.startStamp).step = kBeginStep := stamp_step _
    simp only [Machine.step, hnone, hbegin, if_true]
    rfl
  have hboundaries : ((sp.start, kBeginStep) :: sp.steps ++ [(sp.finish, kEndStep)]).Pairwise fun x y => x.1 < y.1 := by
    have hstamps : sp.stamps = ((sp.start, kBeginStep) :: sp.steps ++ [(sp.finish, kEndStep)]).map sp.stamp := by
      simp [stamps, startStamp, finishStamp]
    rw [hstamps, List.pairwise_map] at hasc
    exact hasc
  rw [stamps, List.foldl_cons, hstep, foldl_rest (fun _ h => h) hboundaries rfl]
  cases m
  simp only [measured, transitions, true_and, List.append_assoc] at hnone ⊢
  rw [hnone]

/-- Spans of one key, one after the other. -/
theorem foldl_spans {spans : List CompleteSpan}
    (hasc : (spans.flatMap stamps).Pairwise fun x y => x.timestamp < y.timestamp) {m : Machine} (hnone : m.span = none) :
    (spans.flatMap stamps).foldl Machine.step m = { m with records := m.records ++ spans.flatMap measured } := by
  induction spans generalizing m with
  | nil => simp
  | cons sp spans ih =>
      rw [List.flatMap_cons] at hasc
      obtain ⟨hfirst, hrest, -⟩ := List.pairwise_append.mp hasc
      have hone : Machine.span { m with records := m.records ++ sp.measured } = none := hnone
      rw [List.flatMap_cons, List.foldl_append, foldl_stamps hfirst hnone, ih hrest hone]
      simp

/-- Where the span is open after some of the stamps, one was begun and not yet ended. -/
theorem foldl_prefix {spans : List CompleteSpan}
    (hasc : (spans.flatMap stamps).Pairwise fun x y => x.timestamp < y.timestamp) {m : Machine} (hnone : m.span = none)
    {front back : List Sample} (hsplit : spans.flatMap stamps = front ++ back)
    (hopen : (front.foldl Machine.step m).span.isSome) :
    ∃ sp ∈ spans, sp.startStamp ∈ front ∧ sp.finishStamp ∈ back := by
  induction spans generalizing m front with
  | nil =>
      obtain ⟨rfl, -⟩ := List.append_eq_nil_iff.mp hsplit.symm
      rw [List.foldl_nil, hnone] at hopen
      cases hopen
  | cons sp spans ih =>
      rw [List.flatMap_cons] at hasc hsplit
      obtain ⟨hfirst, hrest, -⟩ := List.pairwise_append.mp hasc
      rcases List.append_eq_append_iff.mp hsplit with ⟨front', rfl, hback⟩ | ⟨back', hstamps, rfl⟩
      · -- the first span is over
        have hone : Machine.span { m with records := m.records ++ sp.measured } = none := hnone
        rw [List.foldl_append, foldl_stamps hfirst hnone] at hopen
        obtain ⟨sp', hsp', hstart, hfinish⟩ := ih hrest hone hback hopen
        exact ⟨sp', List.mem_cons_of_mem _ hsp', List.mem_append_right _ hstart, hfinish⟩
      · cases front with
        | nil =>
            rw [List.foldl_nil, hnone] at hopen
            cases hopen
        | cons s front =>
            obtain ⟨rfl, htail⟩ := List.cons.inj hstamps
            refine ⟨sp, List.mem_cons_self, List.mem_cons_self, List.mem_append_left _ ?_⟩
            rcases List.eq_nil_or_concat' back' with rfl | ⟨init, last, rfl⟩
            · rw [List.append_nil] at hstamps
              rw [← hstamps, foldl_stamps hfirst hnone] at hopen
              rw [show Machine.span { m with records := m.records ++ sp.measured } = none from hnone] at hopen
              cases hopen
            · have htail' : sp.steps.map sp.stamp ++ [sp.finishStamp] = front ++ init ++ [last] := by
                rw [List.append_assoc]
                exact htail
              obtain ⟨-, hlast⟩ := List.append_inj' htail' rfl
              cases hlast
              exact List.mem_append_right _ (List.mem_singleton_self _)

/-- Nothing a machine has recorded or counted is taken back. -/
theorem foldl_grows (l : List Sample) (m : Machine) :
    m.records <+: (l.foldl Machine.step m).records ∧ m.orphan ≤ (l.foldl Machine.step m).orphan ∧
      m.invalid ≤ (l.foldl Machine.step m).invalid ∧ m.abandoned ≤ (l.foldl Machine.step m).abandoned := by
  induction l generalizing m with
  | nil => exact ⟨List.prefix_refl _, Nat.le_refl _, Nat.le_refl _, Nat.le_refl _⟩
  | cons s l ih =>
      have hstep : m.records <+: (m.step s).records ∧ m.orphan ≤ (m.step s).orphan ∧ m.invalid ≤ (m.step s).invalid ∧
          m.abandoned ≤ (m.step s).abandoned := by
        unfold Machine.step
        split
        · split
          · exact ⟨List.prefix_refl _, Nat.le_refl _, Nat.le_refl _, Nat.le_refl _⟩
          · exact ⟨List.prefix_refl _, Nat.le_succ _, Nat.le_refl _, Nat.le_refl _⟩
        · split
          · exact ⟨List.prefix_refl _, Nat.le_refl _, Nat.le_refl _, Nat.le_succ _⟩
          · split
            · exact ⟨List.prefix_refl _, Nat.le_refl _, Nat.le_succ _, Nat.le_refl _⟩
            · split
              · exact ⟨List.prefix_append _ _, Nat.le_refl _, Nat.le_refl _, Nat.le_refl _⟩
              · exact ⟨List.prefix_append _ _, Nat.le_refl _, Nat.le_refl _, Nat.le_refl _⟩
      obtain ⟨hr, ho, hi, ha⟩ := ih (m.step s)
      exact ⟨hstep.1.trans hr, hstep.2.1.trans ho, hstep.2.2.1.trans hi, hstep.2.2.2.trans ha⟩

end Machine

/-! ## A run made of their stamps -/

/-- The key of a span. -/
def CompleteSpan.isOf (sp : CompleteSpan) (p q : UInt32) : Bool := sp.point == p && sp.seq == q

theorem CompleteSpan.isOf_iff {sp : CompleteSpan} {p q : UInt32} : sp.isOf p q = true ↔ sp.point = p ∧ sp.seq = q := by
  simp [CompleteSpan.isOf]

/-- What the spans bring to the stage (p, f, t). -/
def spanSamples (spans : List CompleteSpan) (p : UInt32) (f t : UInt8) : Multiset UInt64 :=
  (((spans.filter fun sp => sp.point = p).flatMap measured).filter fun r => r.fromStep = f ∧ r.toStep = t).map
    Transition.cycles

/-- The keys of the spans that are open at `ts`, from their begin to their end. -/
def keysAt (spans : List CompleteSpan) (ts : UInt64) : Finset (UInt32 × UInt32) :=
  ((spans.filter fun sp => sp.start ≤ ts ∧ ts ≤ sp.finish).map fun sp => (sp.point, sp.seq)).toFinset

/-- The stages the spans bring samples to. -/
def spanStages (spans : List CompleteSpan) : Finset (UInt32 × UInt8 × UInt8) :=
  (spans.flatMap fun sp => sp.measured.map fun r => (sp.point, r.fromStep, r.toStep)).toFinset

/-- A run in timestamp order of the stamps of the spans, those of one key one span after the other. -/
structure SpansInOrder (spans : List CompleteSpan) (ss : List Sample) : Prop where
  stamps : ss.Perm (spans.flatMap stamps)
  order : ss.Pairwise fun a b => a.timestamp ≤ b.timestamp
  increasing : ∀ p q, ((spans.filter (·.isOf p q)).flatMap CompleteSpan.stamps).Pairwise fun a b =>
    a.timestamp < b.timestamp

/-- A run whose timestamps do not go down is the only one of its samples whose timestamps go up. -/
theorem eq_of_perm_increasing {l l' : List Sample} (hp : l.Perm l') (hl : l.Pairwise fun a b => a.timestamp ≤ b.timestamp)
    (hl' : l'.Pairwise fun a b => a.timestamp < b.timestamp) : l = l' := by
  have hne : l.Pairwise fun a b => a.timestamp ≠ b.timestamp :=
    (hp.pairwise_iff fun h => h.symm).mpr (hl'.imp fun h => UInt64.ne_of_lt h)
  have hlt : l.Pairwise fun a b => a.timestamp < b.timestamp :=
    (hl.and hne).imp fun h => UInt64.lt_of_le_of_ne h.1 h.2
  exact hp.eq_of_pairwise (fun a b _ _ h h' => absurd h' (UInt64.lt_asymm h)) hlt hl'

namespace SpansInOrder

variable {spans : List CompleteSpan} {ss : List Sample}

theorem filter_stamps (spans : List CompleteSpan) (p q : UInt32) :
    (spans.flatMap CompleteSpan.stamps).filter (·.isOf p q) =
      (spans.filter (·.isOf p q)).flatMap CompleteSpan.stamps := by
  induction spans with
  | nil => rfl
  | cons sp spans ih =>
      rw [List.flatMap_cons, List.filter_append, ih]
      by_cases hsp : sp.isOf p q = true
      · have hall : sp.stamps.filter (·.isOf p q) = sp.stamps :=
          List.filter_eq_self.mpr fun s hs => (isOf_of_mem hs p q).mpr (CompleteSpan.isOf_iff.mp hsp)
        rw [hall, List.filter_cons, if_pos hsp, List.flatMap_cons]
      · have hnone : sp.stamps.filter (·.isOf p q) = [] :=
          List.filter_eq_nil_iff.mpr fun s hs h => hsp (CompleteSpan.isOf_iff.mpr ((isOf_of_mem hs p q).mp h))
        rw [hnone, List.filter_cons, if_neg hsp, List.nil_append]

/-- The stamps of one key, in the run. -/
theorem filter_eq (h : SpansInOrder spans ss) (p q : UInt32) :
    ss.filter (·.isOf p q) = (spans.filter (·.isOf p q)).flatMap CompleteSpan.stamps := by
  refine eq_of_perm_increasing ?_ (h.order.filter _) (h.increasing p q)
  rw [← filter_stamps]
  exact h.stamps.filter _

/-- Its machine. -/
theorem machineAt_eq (h : SpansInOrder spans ss) (p q : UInt32) :
    machineAt p q ss = { records := (spans.filter (·.isOf p q)).flatMap measured } := by
  rw [machineAt, h.filter_eq, Machine.foldl_spans (h.increasing p q) rfl]
  rfl

theorem isStamp (h : SpansInOrder spans ss) {s : Sample} (hs : s ∈ ss) : s.isStamp = true := by
  obtain ⟨sp, -, hsp⟩ := List.mem_flatMap.mp (h.stamps.mem_iff.mp hs)
  exact isStamp_of_mem hsp

theorem sum_records (spans : List CompleteSpan) (p : UInt32) (f t : UInt8) :
    ∑ q ∈ allSeqs, ((Machine.recordsOf { records := (spans.filter (·.isOf p q)).flatMap measured } f t : List UInt64) :
      Multiset UInt64) = spanSamples spans p f t := by
  induction spans with
  | nil => exact Finset.sum_eq_zero fun _ _ => rfl
  | cons sp spans ih =>
      by_cases hp : sp.point = p
      · rw [sum_grow (F := fun q =>
          ((Machine.recordsOf { records := (spans.filter (·.isOf p q)).flatMap measured } f t : List UInt64) :
            Multiset UInt64)) (q := sp.seq)
          (d := (((sp.measured.filter fun r => r.fromStep = f ∧ r.toStep = t).map Transition.cycles : List UInt64) :
            Multiset UInt64)) (mem_allSeqs.mpr sp.seq_lt), ih]
        · simp [spanSamples, hp, add_comm]
        · intro q hq
          have hno : ¬ sp.isOf p q = true := fun h => hq (CompleteSpan.isOf_iff.mp h).2.symm
          simp [hno]
        · have hyes : sp.isOf p sp.seq = true := CompleteSpan.isOf_iff.mpr ⟨hp, rfl⟩
          simp [Machine.recordsOf, hyes, add_comm]
      · have hsame : ∀ q, (sp :: spans).filter (·.isOf p q) = spans.filter (·.isOf p q) := fun q => by
          rw [List.filter_cons, if_neg fun h => hp (CompleteSpan.isOf_iff.mp h).1]
        simp only [hsame, ih]
        simp [spanSamples, hp]

theorem stageSamples_eq (h : SpansInOrder spans ss) (p : UInt32) (f t : UInt8) :
    stageSamples ss p f t = spanSamples spans p f t := by
  have hvalues : valuesAt p ss = [] := by
    rw [valuesAt, List.map_eq_nil_iff, List.filter_eq_nil_iff]
    intro s hs
    simp [h.isStamp hs]
  simp only [stageSamples, h.machineAt_eq, hvalues, sum_records]
  split <;> exact add_zero _

theorem pointCounters_eq (h : SpansInOrder spans ss) (p : UInt32) : pointCounters ss p = {} := by
  simp only [pointCounters, h.machineAt_eq, Finset.sum_const_zero]

/-! ## What the run needs room for -/

/-- After a part of the run the machine has recorded part of what it will, and counted nothing. -/
theorem machineAt_front {front back : List Sample} (h : SpansInOrder spans (front ++ back)) (p q : UInt32) :
    (machineAt p q front).records <+: (spans.filter (·.isOf p q)).flatMap measured ∧
      (machineAt p q front).anomalous = false := by
  have hgrows := Machine.foldl_grows (back.filter (·.isOf p q)) (machineAt p q front)
  have hall : (back.filter (·.isOf p q)).foldl Machine.step (machineAt p q front) = machineAt p q (front ++ back) := by
    rw [machineAt, machineAt, List.filter_append, List.foldl_append]
  rw [hall, h.machineAt_eq] at hgrows
  obtain ⟨hrecords, horphan, hinvalid, habandoned⟩ := hgrows
  refine ⟨hrecords, ?_⟩
  simp only [Machine.anomalous, Bool.or_eq_false_iff, bne_eq_false_iff_eq]
  exact ⟨⟨Nat.le_zero.mp horphan, Nat.le_zero.mp hinvalid⟩, Nat.le_zero.mp habandoned⟩

/-- What is open after a part of the run was begun by then and ends no earlier. -/
theorem openKeys_front {front back : List Sample} {last : Sample} (h : SpansInOrder spans (front ++ [last] ++ back)) :
    openKeys (front ++ [last]) ⊆ keysAt spans last.timestamp := by
  rintro ⟨p, q⟩ hopen
  have hsplit := h.filter_eq p q
  rw [List.filter_append] at hsplit
  obtain ⟨sp, hsp, hstart, hfinish⟩ :=
    Machine.foldl_prefix (h.increasing p q) rfl hsplit.symm (mem_openKeys.mp hopen)
  obtain ⟨hin, hkey⟩ := List.mem_filter.mp hsp
  obtain ⟨rfl, rfl⟩ := CompleteSpan.isOf_iff.mp hkey
  obtain ⟨hfront, -, hacross⟩ := List.pairwise_append.mp h.order
  have hbegun : sp.start ≤ last.timestamp := by
    rcases List.mem_append.mp (List.mem_filter.mp hstart).1 with hs | hs
    · exact (List.pairwise_append.mp hfront).2.2 _ hs last (List.mem_singleton_self _)
    · rw [← List.mem_singleton.mp hs]
      exact UInt64.le_refl _
  have hends : last.timestamp ≤ sp.finish :=
    hacross last (List.mem_append_right _ (List.mem_singleton_self _)) _ (List.mem_filter.mp hfinish).1
  exact List.mem_toFinset.mpr (List.mem_map.mpr
    ⟨sp, List.mem_filter.mpr ⟨hin, decide_eq_true ⟨hbegun, hends⟩⟩, rfl⟩)

/-- Room for the spans open at any one time and for their stages is room for the run. -/
theorem fits (h : SpansInOrder spans ss) {cfg : Config}
    (hopen : ∀ ts, (keysAt spans ts).card ≤ max 1 cfg.maxOpenSpans.toNat)
    (hstages : (spanStages spans).card ≤ max 1 cfg.maxStages.toNat) : Fits cfg ss := by
  intro front hfront
  obtain ⟨back, rfl⟩ := (List.mem_inits _ _).mp hfront
  refine ⟨?_, ?_, ?_⟩
  · rcases List.eq_nil_or_concat' front with rfl | ⟨init, last, rfl⟩
    · exact Nat.zero_le _
    · exact (Finset.card_le_card h.openKeys_front).trans (hopen last.timestamp)
  · refine (Finset.card_le_card ?_).trans hstages
    rintro ⟨p, f, t⟩ hmem
    rcases mem_stagesOf.mp hmem with ⟨q, r, hr, rfl, rfl⟩ | ⟨-, -, s, hs, hvalue, -⟩
    · obtain ⟨sp, hsp, hmeasured⟩ := List.mem_flatMap.mp ((h.machineAt_front p q).1.subset hr)
      obtain ⟨hsp, hkey⟩ := List.mem_filter.mp hsp
      refine List.mem_toFinset.mpr (List.mem_flatMap.mpr ⟨sp, hsp, List.mem_map.mpr ⟨r, hmeasured, ?_⟩⟩)
      rw [(CompleteSpan.isOf_iff.mp hkey).1]
    · rw [h.isStamp (List.mem_append_left _ hs)] at hvalue
      cases hvalue
  · have hnone : anomalyPoints front = ∅ := by
      refine Finset.eq_empty_of_forall_notMem fun p hp => ?_
      obtain ⟨q, hq⟩ := mem_anomalyPoints.mp hp
      rw [(h.machineAt_front p q).2] at hq
      cases hq
    rw [hnone]
    exact Nat.zero_le _

end SpansInOrder

/-! ## The pairer -/

/-- Every stage holds what the spans bring to it, nothing else was recorded, no span is open and nothing counted. -/
structure Measured {A : Type} [Accum A] (spans : List CompleteSpan) (P : Pairer A) : Prop where
  stages : ∀ p f t, StageHolds p f t (spanSamples spans p f t) (P.stages.find (stageKey p f t))
  keyed : ∀ k g, P.stages.find k = some g → k = stageKey g.point g.fromStep g.toStep
  closed : P.spans.entries = []
  counters : ∀ p, P.anomaliesOf p = {}
  overflow : P.overflow = {}

/-- The pairer measures the spans of a run that has them in order. -/
theorem SpansInOrder.measured {A : Type} [Accum A] (H : Library.HeapLib) {spans : List CompleteSpan} {ss : List Sample}
    (h : SpansInOrder spans ss) {cfg : Config} (hopen : ∀ ts, (keysAt spans ts).card ≤ max 1 cfg.maxOpenSpans.toNat)
    (hstages : (spanStages spans).card ≤ max 1 cfg.maxStages.toNat) :
    Measured spans (ss.foldl (fun P s => P.onEvent H s) (Pairer.reset cfg : Pairer A)) := by
  have hrefines := Refines.run H (A := A) cfg ss (h.fits hopen hstages)
  generalize ss.foldl (fun P s => P.onEvent H s) (Pairer.reset cfg : Pairer A) = P at hrefines ⊢
  exact
    { stages := fun p f t => by
        rw [← h.stageSamples_eq]
        exact hrefines.stages.holds p f t
      keyed := hrefines.stages.keyed
      closed := by
        refine List.eq_nil_iff_forall_not_mem.mpr fun e he => ?_
        have hfind := (OpenMap.find_eq_some hrefines.wf.spans).mpr he
        obtain ⟨p, q, hq, hk⟩ := hrefines.spans.keys e.1 e.2 hfind
        rw [hk, hrefines.spans.find p q hq, h.machineAt_eq] at hfind
        cases hfind
      counters := fun p => by rw [hrefines.points.counters, h.pointCounters_eq]
      overflow := hrefines.points.overflow }

end SlickPerfmon
