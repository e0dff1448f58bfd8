import SlickPerfmon.Pairing.Lemmas.Evict

/-!
# Nothing stamped disappears uncounted

A ledger counts the stamps handed to the pairer and which of them it accepted. Over every run of calls the
ledger balances against the open spans and the anomaly counters, however small the tables are.
-/

namespace SlickPerfmon

open Library Pairer

/-- The calls that change a pairer after `reset`. -/
inductive Call
  | event (s : Sample)
  | sweep (nowTsc maxAgeCycles : UInt64)
  | abandonAll
  | clearIntervals

/-- The stamps so far: begins, steps and ends together (`moves`), and the steps and ends that were accepted. -/
structure Ledger where
  begins : Nat := 0
  moves : Nat := 0
  acceptedSteps : Nat := 0
  acceptedEnds : Nat := 0

section Run

variable {A : Type} [Accum A] (H : HeapLib)

/-- The span that a step or an end continues, if it is accepted. -/
def Pairer.accepts (P : Pairer A) (s : Sample) : Option OpenSpan :=
  if s.isStamp = true ∧ s.step ≠ kBeginStep then
    (P.spans.find s.key).filter fun sp => ¬ s.timestamp < sp.lastTsc
  else none

/-- The ledger once `s` was handed over in state `P`. -/
def Ledger.note (L : Ledger) (P : Pairer A) (s : Sample) : Ledger :=
  if s.isStamp = false then L
  else if s.step = kBeginStep then { L with begins := L.begins + 1 }
  else if (P.accepts s).isNone then { L with moves := L.moves + 1 }
  else if s.step = kEndStep then { L with moves := L.moves + 1, acceptedEnds := L.acceptedEnds + 1 }
  else { L with moves := L.moves + 1, acceptedSteps := L.acceptedSteps + 1 }

def Pairer.call (P : Pairer A) : Call → Pairer A
  | .event s => P.onEvent H s
  | .sweep nowTsc maxAgeCycles => (P.sweep nowTsc maxAgeCycles).1
  | .abandonAll => P.abandonAll.1
  | .clearIntervals => P.clearIntervals

def callStep (x : Pairer A × Ledger) (c : Call) : Pairer A × Ledger :=
  (x.1.call H c, match c with
    | .event s => x.2.note x.1 s
    | _ => x.2)

/-- A run of calls after `reset`. -/
def runCalls (cfg : Config) (calls : List Call) : Pairer A × Ledger :=
  calls.foldl (callStep H) (reset cfg, {})

end Run

/-! ## What one event must account for -/

section Accounted

variable {A : Type} [Accum A]

/-- Every effect of handing `s` over. -/
structure Accounted (P : Pairer A) (s : Sample) (P' : Pairer A) : Prop where
  value : s.isStamp = false →
    RecordsOnce P s.point kValueStep kValueStep (P.netCycles s.timestamp 0) P'
  step : ∀ sp, P.accepts s = some sp → s.step ≠ kEndStep →
    RecordsOnce P s.point sp.lastStep s.step (P.netCycles (s.timestamp - sp.lastTsc) 1) P'
  /-- An end records the last transition, unless the span had no step, and then the total. -/
  «end» : ∀ sp, P.accepts s = some sp → s.step = kEndStep →
    ∃ P₁, (if sp.lastStep = kBeginStep then P₁ = P
        else RecordsOnce P s.point sp.lastStep kEndStep (P.netCycles (s.timestamp - sp.lastTsc) 1) P₁) ∧
      RecordsOnce P₁ s.point kBeginStep kBeginStep
        (P.netCycles (s.timestamp - sp.startTsc) (sp.transitions + 1)) P'
  /-- Nothing else is recorded. -/
  silent : s.isStamp = true → P.accepts s = none → P'.stages = P.stages
  opened : s.step = kBeginStep → P'.spans.find s.key = some (freshSpan s)
  evicted : s.step = kBeginStep → P.spans.find s.key = none → P.spans.size = P.spans.maxEntries →
    ∃ k sp, k ≠ s.key ∧ P.spans.find k = some sp ∧
      (∀ k', P'.spans.find k' =
        if k' = s.key then some (freshSpan s) else if k' = k then none else P.spans.find k') ∧
      CountedOnce P P' (spanPoint k) .incAbandoned

end Accounted

/-! ## Tallies -/

section Tallies

variable {A : Type}

/-- What one count moves in the three tallies the ledger is balanced against. -/
theorem tallies_anomalies {P Q : Pairer A} (h : P.points.WF) (p : UInt32)
    (inc : PointAnomalies → PointAnomalies) {i a o : Nat}
    (hinc : ∀ x, (inc x).invalid = x.invalid + i ∧ (inc x).abandoned = x.abandoned + a ∧
      (inc x).orphan = x.orphan + o)
    (hp : Q.points = (P.anomalies p inc).points) (ho : Q.overflow = (P.anomalies p inc).overflow) :
    Q.tally PointAnomalies.invalid = P.tally PointAnomalies.invalid + i ∧
    Q.tally PointAnomalies.abandoned = P.tally PointAnomalies.abandoned + a ∧
    Q.tally PointAnomalies.orphan = P.tally PointAnomalies.orphan + o := by
  have heq : ∀ f, Q.tally f = (P.anomalies p inc).tally f := fun f => by
    unfold tally
    rw [hp, ho]
  rw [heq, heq, heq]
  exact ⟨tally_anomalies h (fun x => (hinc x).1) rfl, tally_anomalies h (fun x => (hinc x).2.1) rfl,
    tally_anomalies h (fun x => (hinc x).2.2) rfl⟩

/-- Recording moves none of the three. -/
theorem tallies_record [Accum A] {P P' : Pairer A} (h : P.points.WF) {p : UInt32} {f t : UInt8} {v : UInt64}
    (hr : RecordsOnce P p f t v P') :
    P'.tally PointAnomalies.invalid = P.tally PointAnomalies.invalid ∧
    P'.tally PointAnomalies.abandoned = P.tally PointAnomalies.abandoned ∧
    P'.tally PointAnomalies.orphan = P.tally PointAnomalies.orphan := by
  have hsame : ∀ {c : PointAnomalies → Nat}, (∀ a, c (PointAnomalies.incOutOfRange a) = c a + 0) → c {} = 0 →
      P'.tally c = P.tally c := by
    intro c hinc h0
    rcases tally_recordsOnce h hr hinc h0 with he | ⟨-, he⟩
    · exact he
    · exact he
  exact ⟨hsame (fun _ => rfl) rfl, hsame (fun _ => rfl) rfl, hsame (fun _ => rfl) rfl⟩

end Tallies

/-! ## Each call keeps the balance -/

/-- The ledger balances against the open spans and the counters. -/
structure Balanced {A : Type} (cfg : Config) (P : Pairer A) (L : Ledger) : Prop where
  wf : P.WF
  keyed : P.StagesKeyed
  max : P.spans.maxEntries = max 1 cfg.maxOpenSpans.toNat
  begins : L.begins = L.acceptedEnds + P.tally PointAnomalies.invalid + P.tally PointAnomalies.abandoned +
    P.openSpanCount
  moves : L.moves = L.acceptedSteps + L.acceptedEnds + P.tally PointAnomalies.orphan +
    P.tally PointAnomalies.invalid

/-- What moves on the two sides of the balance. -/
theorem Balanced.shift {A : Type} {cfg : Config} {P P' : Pairer A} {L L' : Ledger} (h : Balanced cfg P L)
    {i a o : Nat} (hwf : P'.WF) (hkeyed : P'.StagesKeyed) (hmax : P'.spans.maxEntries = P.spans.maxEntries)
    (htally : P'.tally PointAnomalies.invalid = P.tally PointAnomalies.invalid + i ∧
      P'.tally PointAnomalies.abandoned = P.tally PointAnomalies.abandoned + a ∧
      P'.tally PointAnomalies.orphan = P.tally PointAnomalies.orphan + o)
    (hbegins : L'.begins + L.acceptedEnds + P.spans.size =
      L.begins + L'.acceptedEnds + P'.spans.size + i + a)
    (hmoves : L'.moves + L.acceptedSteps + L.acceptedEnds =
      L.moves + L'.acceptedSteps + L'.acceptedEnds + i + o) : Balanced cfg P' L' := by
  obtain ⟨hi, ha, ho⟩ := htally
  have hb := h.begins
  have hm := h.moves
  simp only [openSpanCount] at hb
  exact
    { wf := hwf
      keyed := hkeyed
      max := hmax.trans h.max
      begins := by simp only [openSpanCount]; omega
      moves := by omega }

section Accepts

variable {A : Type} {P : Pairer A} {s : Sample}

theorem accepts_eq_some {sp : OpenSpan} (h : P.accepts s = some sp) :
    s.isStamp = true ∧ s.step ≠ kBeginStep ∧ P.spans.find s.key = some sp ∧ ¬ s.timestamp < sp.lastTsc := by
  unfold accepts at h
  split at h
  · rename_i hs
    obtain ⟨hf, hlt⟩ := Option.filter_eq_some_iff.mp h
    exact ⟨hs.1, hs.2, hf, by simpa using hlt⟩
  · cases h

theorem accepts_of_find {sp : OpenSpan} (hs : s.isStamp = true) (hb : s.step ≠ kBeginStep)
    (hf : P.spans.find s.key = some sp) :
    P.accepts s = if s.timestamp < sp.lastTsc then none else some sp := by
  unfold accepts
  rw [if_pos ⟨hs, hb⟩, hf]
  by_cases hlt : s.timestamp < sp.lastTsc <;> simp [Option.filter, hlt]

theorem accepts_begin (hb : s.step = kBeginStep) : P.accepts s = none := by
  unfold accepts
  rw [if_neg fun h => h.2 hb]

theorem isStamp_of_begin (hb : s.step = kBeginStep) : s.isStamp = true := by
  have hb' : stepOf s.event = kBeginStep := hb
  rw [Sample.isStamp_iff, hb']
  decide

theorem isStamp_of_end (he : s.step = kEndStep) : s.isStamp = true := by
  have he' : stepOf s.event = kEndStep := he
  rw [Sample.isStamp_iff, he']
  decide

end Accepts

section Events

variable {A : Type} [Accum A] (H : HeapLib) {cfg : Config} {P : Pairer A} {L : Ledger} {s : Sample}

/-- A stamp that is not accepted records nothing. -/
theorem Accounted.rejected {P' : Pairer A} (hs : s.isStamp = true) (hb : s.step ≠ kBeginStep)
    (hacc : P.accepts s = none) (hst : P'.stages = P.stages) : Accounted P s P' where
  value hv := by rw [hs] at hv; cases hv
  step sp ha := by rw [hacc] at ha; cases ha
  «end» sp ha := by rw [hacc] at ha; cases ha
  silent _ _ := hst
  opened h := absurd h hb
  evicted h := absurd h hb

theorem Accounted.begun {P' : Pairer A} (hb : s.step = kBeginStep) (hst : P'.stages = P.stages)
    (hopen : P'.spans.find s.key = some (freshSpan s))
    (hev : P.spans.find s.key = none → P.spans.size = P.spans.maxEntries →
      ∃ k sp, k ≠ s.key ∧ P.spans.find k = some sp ∧
        (∀ k', P'.spans.find k' =
          if k' = s.key then some (freshSpan s) else if k' = k then none else P.spans.find k') ∧
        CountedOnce P P' (spanPoint k) .incAbandoned) : Accounted P s P' where
  value hv := by rw [isStamp_of_begin hb] at hv; cases hv
  step sp ha := by rw [accepts_begin hb] at ha; cases ha
  «end» sp ha := by rw [accepts_begin hb] at ha; cases ha
  silent _ _ := hst
  opened _ := hopen
  evicted _ := hev

namespace Balanced

theorem value (h : Balanced cfg P L) (hv : s.isStamp = false) :
    Balanced cfg (P.onEvent H s) (L.note P s) ∧ Accounted P s (P.onEvent H s) := by
  have hrec := record_spec h.wf h.keyed s.point kValueStep kValueStep s.timestamp 0
  have htally := tallies_record h.wf.points hrec.once
  have hne : ∀ {b : Prop}, s.isStamp = true → b := fun hs => by rw [hv] at hs; cases hs
  have hacc : P.accepts s = none := by
    unfold accepts
    rw [if_neg fun hs => hne hs.1]
  rw [onEvent_value H hv]
  constructor
  · have hL : L.note P s = L := by simp [Ledger.note, hv]
    rw [hL]
    exact h.shift (i := 0) (a := 0) (o := 0) (wf_record h.wf h.keyed ..) hrec.keyed (by rw [record_spans])
      htally (by rw [record_spans]; omega) (by omega)
  · exact
      { value := fun _ => hrec.once
        step := fun sp hs => by rw [hacc] at hs; cases hs
        «end» := fun sp hs => by rw [hacc] at hs; cases hs
        silent := fun hs => hne hs
        opened := fun hb => hne (isStamp_of_begin hb)
        evicted := fun hb => hne (isStamp_of_begin hb) }

theorem orphan (h : Balanced cfg P L) (hs : s.isStamp = true) (hb : s.step ≠ kBeginStep)
    (hf : P.spans.find s.key = none) :
    Balanced cfg (P.onEvent H s) (L.note P s) ∧ Accounted P s (P.onEvent H s) := by
  have hacc : P.accepts s = none := by simp [accepts, hs, hb, hf]
  have htally := tallies_anomalies (i := 0) (a := 0) (o := 1) h.wf.points s.point .incOrphan
    (fun _ => ⟨rfl, rfl, rfl⟩) rfl rfl
  rw [onEvent_orphan H hs hb hf]
  constructor
  · have hL : L.note P s = { L with moves := L.moves + 1 } := by simp [Ledger.note, hs, hb, hacc]
    rw [hL]
    exact h.shift (wf_anomalies h.wf ..) (fun k g hk => h.keyed k g (by rw [← anomalies_stages P]; exact hk))
      (by rw [anomalies_spans]) htally (by simp only [anomalies_spans]; omega) (by simp only; omega)
  · exact Accounted.rejected hs hb hacc (anomalies_stages ..)

theorem backwards (h : Balanced cfg P L) (hs : s.isStamp = true) (hb : s.step ≠ kBeginStep)
    {sp : OpenSpan} (hf : P.spans.find s.key = some sp) (hlt : s.timestamp < sp.lastTsc) :
    Balanced cfg (P.onEvent H s) (L.note P s) ∧ Accounted P s (P.onEvent H s) := by
  have hacc : P.accepts s = none := by rw [accepts_of_find hs hb hf, if_pos hlt]
  obtain ⟨-, hrem⟩ := OpenMap.erase_present h.wf.spans hf
  have hwf := wf_anomalies h.wf s.point .incInvalid
  rw [onEvent_backwards H hs hb hf hlt]
  have htally := tallies_anomalies (i := 1) (a := 0) (o := 0) h.wf.points s.point .incInvalid
    (fun _ => ⟨rfl, rfl, rfl⟩)
    (Q := { P.anomalies s.point .incInvalid with spans := (P.spans.erase s.key).1 }) rfl rfl
  constructor
  · have hL : L.note P s = { L with moves := L.moves + 1 } := by simp [Ledger.note, hs, hb, hacc]
    have hsize := hrem.size
    rw [hL]
    exact h.shift ⟨hrem.wf, hwf.stages, hwf.points, hwf.batch⟩
      (fun k g hk => h.keyed k g (by rw [← anomalies_stages P]; exact hk)) hrem.maxEntries htally
      (by simp only; omega) (by simp only; omega)
  · exact Accounted.rejected hs hb hacc (anomalies_stages ..)

theorem beginOpen (h : Balanced cfg P L) (hb : s.step = kBeginStep) {sp : OpenSpan}
    (hf : P.spans.find s.key = some sp) :
    Balanced cfg (P.onEvent H s) (L.note P s) ∧ Accounted P s (P.onEvent H s) := by
  have hmod := OpenMap.modify_present h.wf.spans (fun _ => freshSpan s) hf
  have hwf := wf_anomalies h.wf s.point .incAbandoned
  rw [onEvent_begin H hb, openBegin_open H hf]
  have htally := tallies_anomalies (i := 0) (a := 1) (o := 0) h.wf.points s.point .incAbandoned
    (fun _ => ⟨rfl, rfl, rfl⟩)
    (Q := { P.anomalies s.point .incAbandoned with spans := P.spans.modify s.key fun _ => freshSpan s })
    rfl rfl
  constructor
  · have hL : L.note P s = { L with begins := L.begins + 1 } := by
      simp [Ledger.note, isStamp_of_begin hb, hb]
    have hsize := hmod.size
    rw [hL]
    exact h.shift ⟨hmod.wf, hwf.stages, hwf.points, hwf.batch⟩
      (fun k g hk => h.keyed k g (by rw [← anomalies_stages P]; exact hk)) hmod.maxEntries htally
      (by simp only; omega) (by simp only; omega)
  · refine Accounted.begun hb (anomalies_stages ..) ?_ fun hn => by rw [hf] at hn; cases hn
    rw [hmod.find, if_pos rfl]

theorem beginRoom (h : Balanced cfg P L) (hb : s.step = kBeginStep) (hf : P.spans.find s.key = none)
    (hroom : P.spans.size < P.spans.maxEntries) :
    Balanced cfg (P.onEvent H s) (L.note P s) ∧ Accounted P s (P.onEvent H s) := by
  obtain ⟨spans, peak, hins, heq⟩ := openBegin_room H h.wf.spans hf hroom
  rw [onEvent_begin H hb, heq]
  constructor
  · have hL : L.note P s = { L with begins := L.begins + 1 } := by
      simp [Ledger.note, isStamp_of_begin hb, hb]
    have hsize := hins.size
    rw [hL]
    exact h.shift (i := 0) (a := 0) (o := 0) ⟨hins.wf, h.wf.stages, h.wf.points, h.wf.batch⟩ h.keyed
      hins.maxEntries ⟨rfl, rfl, rfl⟩ (by simp only; omega) (by simp only; omega)
  · refine Accounted.begun hb rfl ?_ fun _ hfull => by omega
    rw [hins.find, if_pos rfl]

theorem beginFull (h : Balanced cfg P L) (hb : s.step = kBeginStep) (hf : P.spans.find s.key = none)
    (hfull : P.spans.size = P.spans.maxEntries) :
    Balanced cfg (P.onEvent H s) (L.note P s) ∧ Accounted P s (P.onEvent H s) := by
  obtain ⟨k, sp, P₁, spans, peak, hk, hev, hins, heq⟩ := openBegin_full H h.wf hf hfull
  rw [onEvent_begin H hb, heq]
  have hne : k ≠ s.key := by rintro rfl; rw [hf] at hk; cases hk
  have htally := tallies_anomalies (i := 0) (a := 1) (o := 0) h.wf.points (spanPoint k) .incAbandoned
    (fun _ => ⟨rfl, rfl, rfl⟩) (Q := { P₁ with spans := spans, peakOpen := peak }) hev.points hev.overflow
  constructor
  · have hL : L.note P s = { L with begins := L.begins + 1 } := by
      simp [Ledger.note, isStamp_of_begin hb, hb]
    have hsize := hins.size
    have hsize' := hev.removed.size
    have hwf : ({ P₁ with spans := spans, peakOpen := peak } : Pairer A).WF :=
      { spans := hins.wf
        stages := by rw [hev.stages]; exact h.wf.stages
        points := by rw [hev.points]; exact anomalies_points_wf h.wf.points
        batch := by rw [hev.batch]; exact h.wf.batch }
    rw [hL]
    exact h.shift hwf (fun k g hk => h.keyed k g (by rw [← hev.stages]; exact hk))
      (hins.maxEntries.trans hev.removed.maxEntries) htally (by simp only; omega) (by simp only; omega)
  · refine Accounted.begun hb hev.stages (by rw [hins.find, if_pos rfl]) fun _ _ =>
      ⟨k, sp, hne, hk, fun k' => ?_, countedOnce_anomalies h.wf.points hev.points hev.overflow⟩
    rw [hins.find, hev.removed.find]

theorem step (h : Balanced cfg P L) (hs : s.isStamp = true) (hb : s.step ≠ kBeginStep)
    (he : s.step ≠ kEndStep) {sp : OpenSpan} (hf : P.spans.find s.key = some sp)
    (hle : ¬ s.timestamp < sp.lastTsc) :
    Balanced cfg (P.onEvent H s) (L.note P s) ∧ Accounted P s (P.onEvent H s) := by
  have hacc : P.accepts s = some sp := by rw [accepts_of_find hs hb hf, if_neg hle]
  have hrec := record_spec h.wf h.keyed s.point sp.lastStep s.step (s.timestamp - sp.lastTsc) 1
  have hwf := wf_record h.wf h.keyed s.point sp.lastStep s.step (s.timestamp - sp.lastTsc) 1
  have hmod := OpenMap.modify_present h.wf.spans (fun sp : OpenSpan =>
    { sp with
      lastTsc := s.timestamp, seenTsc := s.timestamp, lastStep := s.step,
      transitions := sp.transitions + 1 }) hf
  rw [onEvent_step H hs hb he hf hle]
  constructor
  · have hL : L.note P s = { L with moves := L.moves + 1, acceptedSteps := L.acceptedSteps + 1 } := by
      simp [Ledger.note, hs, hb, hacc, he]
    have hsize := hmod.size
    rw [hL]
    exact h.shift (i := 0) (a := 0) (o := 0) ⟨hmod.wf, hwf.stages, hwf.points, hwf.batch⟩ hrec.keyed
      hmod.maxEntries (tallies_record h.wf.points (hrec.once.frame rfl rfl rfl))
      (by simp only; omega) (by simp only; omega)
  · exact
      { value := fun hv => by rw [hs] at hv; cases hv
        step := fun sp' ha _ => by
          rw [hacc] at ha
          cases ha
          exact hrec.once.frame rfl rfl rfl
        «end» := fun _ _ hend => absurd hend he
        silent := fun _ hn => by rw [hacc] at hn; cases hn
        opened := fun h => absurd h hb
        evicted := fun h => absurd h hb }

theorem «end» (h : Balanced cfg P L) (he : s.step = kEndStep) {sp : OpenSpan}
    (hf : P.spans.find s.key = some sp) (hle : ¬ s.timestamp < sp.lastTsc) :
    Balanced cfg (P.onEvent H s) (L.note P s) ∧ Accounted P s (P.onEvent H s) := by
  have hs := isStamp_of_end he
  have hne : kEndStep ≠ kBeginStep := by decide
  have hb : s.step ≠ kBeginStep := by rw [he]; exact hne
  have hacc : P.accepts s = some sp := by rw [accepts_of_find hs hb hf, if_neg hle]
  obtain ⟨-, hrem⟩ := OpenMap.erase_present h.wf.spans hf
  -- the pairer once the last transition, if any, is recorded
  obtain ⟨P₁, hP₁, hwf₁, hkeyed₁, htally₁, hov₁, hlast⟩ : ∃ P₁ : Pairer A,
      P₁ = (if sp.lastStep ≠ kBeginStep then
        P.record s.point sp.lastStep kEndStep (s.timestamp - sp.lastTsc) 1 else P) ∧ P₁.WF ∧
      P₁.StagesKeyed ∧
      (P₁.tally PointAnomalies.invalid = P.tally PointAnomalies.invalid ∧
        P₁.tally PointAnomalies.abandoned = P.tally PointAnomalies.abandoned ∧
        P₁.tally PointAnomalies.orphan = P.tally PointAnomalies.orphan) ∧
      P₁.overheadCycles = P.overheadCycles ∧
      (if sp.lastStep = kBeginStep then P₁ = P
        else RecordsOnce P s.point sp.lastStep kEndStep (P.netCycles (s.timestamp - sp.lastTsc) 1) P₁) := by
    by_cases hl : sp.lastStep = kBeginStep
    · exact ⟨P, by simp [hl], h.wf, h.keyed, ⟨rfl, rfl, rfl⟩, rfl, by simp [hl]⟩
    · have hrec := record_spec h.wf h.keyed s.point sp.lastStep kEndStep (s.timestamp - sp.lastTsc) 1
      refine ⟨_, by simp only [ne_eq, hl, not_false_eq_true, if_true], wf_record h.wf h.keyed .., hrec.keyed,
        tallies_record h.wf.points hrec.once, record_overheadCycles .., ?_⟩
      rw [if_neg hl]
      exact hrec.once
  have hrec := record_spec hwf₁ hkeyed₁ s.point kBeginStep kBeginStep (s.timestamp - sp.startTsc)
    (sp.transitions + 1)
  have hwf := wf_record hwf₁ hkeyed₁ s.point kBeginStep kBeginStep (s.timestamp - sp.startTsc)
    (sp.transitions + 1)
  obtain ⟨hi, ha, ho⟩ := tallies_record hwf₁.points hrec.once
  rw [onEvent_end H he hf hle, ← hP₁]
  constructor
  · have hL : L.note P s = { L with moves := L.moves + 1, acceptedEnds := L.acceptedEnds + 1 } := by
      simp [Ledger.note, hs, hne, hacc, he]
    have hsize := hrem.size
    rw [hL]
    exact h.shift (i := 0) (a := 0) (o := 0) ⟨hrem.wf, hwf.stages, hwf.points, hwf.batch⟩ hrec.keyed
      hrem.maxEntries ⟨hi.trans htally₁.1, ha.trans htally₁.2.1, ho.trans htally₁.2.2⟩
      (by simp only; omega) (by simp only; omega)
  · exact
      { value := fun hv => by rw [hs] at hv; cases hv
        step := fun _ _ hne => absurd he hne
        «end» := fun sp' ha _ => by
          rw [hacc] at ha
          cases ha
          refine ⟨P₁, hlast, ?_⟩
          have hnet : P₁.netCycles = P.netCycles := by
            funext c n
            simp only [netCycles, hov₁]
          rw [← hnet]
          exact hrec.once.frame rfl rfl rfl
        silent := fun _ hn => by rw [hacc] at hn; cases hn
        opened := fun h => absurd h hb
        evicted := fun h => absurd h hb }

/-- Every event keeps the balance and accounts for all it does. -/
theorem event (h : Balanced cfg P L) (s : Sample) :
    Balanced cfg (P.onEvent H s) (L.note P s) ∧ Accounted P s (P.onEvent H s) := by
  cases hs : s.isStamp with
  | false => exact h.value H hs
  | true =>
      by_cases hb : s.step = kBeginStep
      · cases hf : P.spans.find s.key with
        | some sp => exact h.beginOpen H hb hf
        | none =>
            rcases Nat.lt_or_eq_of_le h.wf.spans.size_le with hroom | hfull
            · exact h.beginRoom H hb hf hroom
            · exact h.beginFull H hb hf hfull
      · cases hf : P.spans.find s.key with
        | none => exact h.orphan H hs hb hf
        | some sp =>
            by_cases hlt : s.timestamp < sp.lastTsc
            · exact h.backwards H hs hb hf hlt
            · by_cases he : s.step = kEndStep
              · exact h.«end» H he hf hlt
              · exact h.step H hs hb he hf hlt

/-! ## Sweeps -/

omit [Accum A]

/-- Every span that `sweep` removes is one count. -/
theorem sweep (h : Balanced cfg P L) (nowTsc maxAgeCycles : UInt64) :
    Balanced cfg (P.sweep nowTsc maxAgeCycles).1 L := by
  by_cases hage : maxAgeCycles = 0
  · rw [Pairer.sweep, if_pos hage]; exact h
  · obtain ⟨m, Q, n, hrun, hw, hmax, hQ⟩ := OpenMap.eraseIf_induct (sweepPred nowTsc maxAgeCycles)
      h.wf.spans P
      (fun m Q _ => m.maxEntries = P.spans.maxEntries ∧ Q.WF ∧ Q.stages = P.stages ∧
        Q.tally PointAnomalies.invalid = P.tally PointAnomalies.invalid ∧
        Q.tally PointAnomalies.orphan = P.tally PointAnomalies.orphan ∧
        Q.tally PointAnomalies.abandoned + m.size = P.tally PointAnomalies.abandoned + P.spans.size)
      ⟨rfl, h.wf, rfl, rfl, rfl, rfl⟩
      (by
        intro m Q n key sp _ hP _ hpred
        unfold sweepPred at hpred ⊢
        split at hpred
        · cases hpred
        · rename_i hcond; rw [if_neg hcond]; exact hP)
      (by
        rintro m m' Q n key sp _ ⟨hmax, hQ, hst, hi, ho, ha⟩ _ hpred hrem
        unfold sweepPred at hpred ⊢
        split at hpred
        · rename_i hcond
          rw [if_pos hcond]
          have hsize := hrem.size
          obtain ⟨hi', ha', ho'⟩ := tallies_anomalies (i := 0) (a := 1) (o := 0) hQ.points (spanPoint key)
            .incAbandoned (fun _ => ⟨rfl, rfl, rfl⟩) rfl rfl
          exact ⟨hrem.maxEntries.trans hmax, wf_anomalies hQ .., (anomalies_stages ..).trans hst,
            hi'.trans hi, ho'.trans ho, by simp only; omega⟩
        · cases hpred)
    obtain ⟨hwf, hst, hi, ho, ha⟩ := hQ
    have hsweep : (P.sweep nowTsc maxAgeCycles).1 = { Q with spans := m } := by
      simp only [Pairer.sweep, hage, if_false, hrun]
    have hb := h.begins
    have hm := h.moves
    rw [hsweep]
    exact
      { wf := ⟨hw, hwf.stages, hwf.points, hwf.batch⟩
        keyed := fun k g hk => h.keyed k g (by rw [← hst]; exact hk)
        max := hmax.trans h.max
        begins := by
          simp only [openSpanCount, tally] at hb ha hi ⊢
          omega
        moves := by
          simp only [tally] at hm hi ho ⊢
          omega }

/-- Every span that `abandon_all` drops is one count. -/
theorem abandonAll (h : Balanced cfg P L) : Balanced cfg P.abandonAll.1 L := by
  have hfold : ∀ (es : List (UInt64 × OpenSpan)) (Q : Pairer A), Q.WF →
      let Q' := es.foldl (fun Q e => Q.anomalies (spanPoint e.1) .incAbandoned) Q
      Q'.WF ∧ Q'.stages = Q.stages ∧ Q'.spans = Q.spans ∧
        Q'.tally PointAnomalies.invalid = Q.tally PointAnomalies.invalid ∧
        Q'.tally PointAnomalies.orphan = Q.tally PointAnomalies.orphan ∧
        Q'.tally PointAnomalies.abandoned = Q.tally PointAnomalies.abandoned + es.length := by
    intro es
    induction es with
    | nil => intro Q hQ; exact ⟨hQ, rfl, rfl, rfl, rfl, rfl⟩
    | cons e es ih =>
        intro Q hQ
        obtain ⟨hi, ha, ho⟩ := tallies_anomalies (i := 0) (a := 1) (o := 0) hQ.points (spanPoint e.1)
          .incAbandoned (fun _ => ⟨rfl, rfl, rfl⟩) rfl rfl
        obtain ⟨hwf, hst, hsp, hi', ho', ha'⟩ := ih (Q.anomalies (spanPoint e.1) .incAbandoned)
          (wf_anomalies hQ ..)
        exact ⟨hwf, hst.trans (anomalies_stages ..), hsp.trans (anomalies_spans ..), hi'.trans hi,
          ho'.trans ho, by simp only [List.foldl_cons, List.length_cons]; omega⟩
  obtain ⟨hwf, hst, hsp, hi, ho, ha⟩ := hfold P.spans.entries P h.wf
  have hb := h.begins
  have hm := h.moves
  have hsize := h.wf.spans.size_eq
  have hclear : ∀ m : OpenMap OpenSpan, m.clear.size = 0 := fun _ => rfl
  exact
    { wf := ⟨by simp only [Pairer.abandonAll, hsp]; exact OpenMap.wf_clear h.wf.spans, hwf.stages, hwf.points,
        hwf.batch⟩
      keyed := fun k g hk => h.keyed k g (by rw [← hst]; exact hk)
      max := by simp only [Pairer.abandonAll, hsp]; exact h.max
      begins := by
        simp only [Pairer.abandonAll, openSpanCount, hclear, tally] at hb ha hi ⊢
        omega
      moves := by
        simp only [Pairer.abandonAll, tally] at hm hi ho ⊢
        omega }

/-- Rewriting the accumulators of the stages moves no count. -/
theorem rewriteStages (h : Balanced cfg P L) {f : Stage A → Stage A}
    (hf : ∀ g, (f g).point = g.point ∧ (f g).fromStep = g.fromStep ∧ (f g).toStep = g.toStep) :
    Balanced cfg { P with stages := P.stages.forEach fun _ => f } L := by
  have hre := OpenMap.forEach_spec h.wf.stages fun _ => f
  exact
    { wf := ⟨h.wf.spans, hre.wf, h.wf.points, h.wf.batch⟩
      keyed := fun k g hk => by
        obtain ⟨g', hg', rfl⟩ := Option.map_eq_some_iff.mp ((hre.find k).symm.trans hk)
        rw [(hf g').1, (hf g').2.1, (hf g').2.2]
        exact h.keyed k g' hg'
      max := h.max
      begins := h.begins
      moves := h.moves }

theorem clearIntervals [Accum A] (h : Balanced cfg P L) : Balanced cfg P.clearIntervals L :=
  h.rewriteStages fun _ => ⟨rfl, rfl, rfl⟩

theorem setOverhead (h : Balanced cfg P L) (cycles : UInt64) : Balanced cfg (P.setOverhead cycles) L :=
  ⟨⟨h.wf.spans, h.wf.stages, h.wf.points, h.wf.batch⟩, h.keyed, h.max, h.begins, h.moves⟩

theorem call [Accum A] (h : Balanced cfg P L) (c : Call) : ∃ L', Balanced cfg (P.call H c) L' := by
  cases c with
  | event s => exact ⟨_, (h.event H s).1⟩
  | sweep nowTsc maxAgeCycles => exact ⟨_, h.sweep nowTsc maxAgeCycles⟩
  | abandonAll => exact ⟨_, h.abandonAll⟩
  | clearIntervals => exact ⟨_, h.clearIntervals⟩

end Balanced

end Events

/-! ## Runs -/

section Runs

variable {A : Type}

theorem balanced_reset (cfg : Config) : Balanced cfg (reset cfg : Pairer A) {} where
  wf := wf_reset cfg
  keyed k g hk := by
    rw [show (reset cfg : Pairer A).stages.find k = none from OpenMap.find_reset _ _] at hk
    cases hk
  max := OpenMap.maxEntries_reset _
  begins := by
    simp [tally, openSpanCount, reset, OpenMap.entries_reset]
    rfl
  moves := by simp [tally, reset, OpenMap.entries_reset]

variable [Accum A] (H : HeapLib)

theorem balanced_run (cfg : Config) (calls : List Call) :
    Balanced cfg (runCalls (A := A) H cfg calls).1 (runCalls (A := A) H cfg calls).2 := by
  induction calls using List.reverseRecOn with
  | nil => exact balanced_reset cfg
  | append_singleton calls c ih =>
      rw [runCalls, List.foldl_append, ← runCalls]
      cases c with
      | event s => exact (ih.event H s).1
      | sweep nowTsc maxAgeCycles => exact ih.sweep nowTsc maxAgeCycles
      | abandonAll => exact ih.abandonAll
      | clearIntervals => exact ih.clearIntervals

end Runs

end SlickPerfmon
