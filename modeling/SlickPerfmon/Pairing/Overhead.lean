import SlickPerfmon.Pairing.ScanEviction

/-!
# What a completed span is charged

Each stamp of a span makes its calls of `record`: one for a step, one or two for an end. Over a completed span the
stage samples and the total add up, the stamp overhead taken out of both.
-/

namespace SlickPerfmon

open Library

namespace Pairer

/-! ## The calls of `record` -/

/-- One call of `record`: a stage, and the raw cycles over a number of transitions. -/
structure Measurement where
  fromStep : UInt8
  toStep : UInt8
  cycles : UInt64
  transitions : UInt32
deriving DecidableEq, Repr

/-- The sample that is stored for it, once the overhead is taken out. -/
def Measurement.stored (overhead : UInt64) (m : Measurement) : UInt64 :=
  let ov := overhead * m.transitions.toUInt64
  if m.cycles > ov then m.cycles - ov else 0

section Measures

variable {A : Type}

/-- The calls of `record` that handing `s` over makes, in order. -/
def measures (P : Pairer A) (s : Sample) : List Measurement :=
  if s.isStamp = false then [⟨kValueStep, kValueStep, s.timestamp, 0⟩]
  else
    match P.accepts s with
    | none => []
    | some sp =>
        if s.step = kEndStep then
          (if sp.lastStep = kBeginStep then [] else [⟨sp.lastStep, kEndStep, s.timestamp - sp.lastTsc, 1⟩]) ++
            [⟨kBeginStep, kBeginStep, s.timestamp - sp.startTsc, sp.transitions + 1⟩]
        else [⟨sp.lastStep, s.step, s.timestamp - sp.lastTsc, 1⟩]

variable [Accum A]

end Measures

/-! ## The differences of a span's stamps -/

/-- The last stamp of a span that begins with `a`. -/
def lastStamp : Sample → List Sample → Sample
  | a, [] => a
  | _, c :: cs => lastStamp c cs

theorem lastStamp_append (a : Sample) (cs : List Sample) (c : Sample) : lastStamp a (cs ++ [c]) = c := by
  induction cs generalizing a with
  | nil => rfl
  | cons c' cs ih => exact ih c'

theorem lastStamp_mem (a : Sample) (cs : List Sample) : lastStamp a cs ∈ a :: cs := by
  induction cs generalizing a with
  | nil => exact List.mem_cons_self
  | cons c cs ih => exact List.mem_cons_of_mem _ (ih c)

/-- The timestamps never go back. -/
def Sorted (a : Sample) (cs : List Sample) : Prop :=
  (a :: cs).Pairwise fun x y => x.timestamp ≤ y.timestamp

theorem Sorted.le_last {a : Sample} {cs : List Sample} (h : Sorted a cs) :
    ∀ x ∈ a :: cs, x.timestamp ≤ (lastStamp a cs).timestamp := by
  induction cs generalizing a with
  | nil =>
      intro x hx
      rw [List.mem_singleton.mp hx]
      exact UInt64.le_refl _
  | cons c cs ih =>
      intro x hx
      obtain ⟨hall, hrest⟩ := List.pairwise_cons.mp h
      rcases List.mem_cons.mp hx with rfl | hx
      · exact UInt64.le_trans (hall c List.mem_cons_self) (ih hrest c List.mem_cons_self)
      · exact ih hrest x hx

/-- A stamp no earlier than the last keeps the order. -/
theorem Sorted.append {a : Sample} {cs : List Sample} (h : Sorted a cs) {c : Sample}
    (hle : (lastStamp a cs).timestamp ≤ c.timestamp) : Sorted a (cs ++ [c]) := by
  unfold Sorted at h ⊢
  rw [← List.cons_append]
  refine List.pairwise_append.mpr ⟨h, List.pairwise_singleton _ _, fun x hx y hy => ?_⟩
  rw [List.mem_singleton.mp hy]
  exact UInt64.le_trans (Sorted.le_last h x hx) hle

/-- Nothing is taken out of a value. -/
theorem stored_value (overhead : UInt64) (v : UInt64) :
    (⟨kValueStep, kValueStep, v, 0⟩ : Measurement).stored overhead = v := by
  have hzero : overhead * (0 : UInt32).toUInt64 = 0 := by simp
  simp only [Measurement.stored, hzero]
  split
  · simp
  · rename_i hle
    have : v.toNat ≤ 0 := UInt64.le_iff_toNat_le.mp (UInt64.not_lt.mp hle)
    apply UInt64.toNat_inj.mp
    rw [UInt64.toNat_zero]
    omega

section Overhead

variable {A : Type} {P : Pairer A}

theorem abandonEach_overheadCycles (P : Pairer A) (es : List (UInt64 × OpenSpan)) :
    (es.foldl (fun P e => P.anomalies (spanPoint e.1) .incAbandoned) P).overheadCycles = P.overheadCycles := by
  induction es generalizing P with
  | nil => rfl
  | cons e es ih => exact (ih _).trans (anomalies_overheadCycles ..)

theorem sweep_overheadCycles (h : P.spans.WF) (nowTsc maxAgeCycles : UInt64) :
    (P.sweep nowTsc maxAgeCycles).1.overheadCycles = P.overheadCycles := by
  by_cases hage : maxAgeCycles = 0
  · rw [sweep, if_pos hage]
  · obtain ⟨removed, out, hrun, hout⟩ := OpenMap.eraseIf_spec (fun _ sp => expired nowTsc maxAgeCycles sp)
      (fun (P : Pairer A) key _ => P.anomalies (spanPoint key) .incAbandoned) h P
    have hsweep : (P.sweep nowTsc maxAgeCycles).1 = { out.2.1 with spans := out.1 } := by
      rw [sweep, if_neg hage, sweepPred_eq hage, OpenMap.eraseIf_eq hrun]
    rw [hsweep]
    exact (congrArg _ hout.state).trans (abandonEach_overheadCycles P removed)

variable [Accum A] (H : HeapLib)

theorem onEvent_overheadCycles (h : P.WF) (s : Sample) : (P.onEvent H s).overheadCycles = P.overheadCycles := by
  cases hs : s.isStamp with
  | false => rw [onEvent_value H hs, record_overheadCycles]
  | true =>
      by_cases hb : s.step = kBeginStep
      · rw [onEvent_begin H hb]
        cases hf : P.spans.find s.key with
        | some sp =>
            rw [openBegin_open H hf]
            exact anomalies_overheadCycles ..
        | none =>
            rcases Nat.lt_or_eq_of_le h.spans.size_le with hroom | hfull
            · obtain ⟨spans, peak, -, heq⟩ := openBegin_room H h.spans hf hroom
              rw [heq]
            · obtain ⟨k, sp, P₁, spans, peak, -, hev, -, heq⟩ := openBegin_full H h hf hfull
              rw [heq]
              exact hev.overhead
      · cases hf : P.spans.find s.key with
        | none => rw [onEvent_orphan H hs hb hf, anomalies_overheadCycles]
        | some sp =>
            by_cases hlt : s.timestamp < sp.lastTsc
            · rw [onEvent_backwards H hs hb hf hlt]
              exact anomalies_overheadCycles ..
            · by_cases he : s.step = kEndStep
              · rw [onEvent_end H he hf hlt]
                refine (record_overheadCycles ..).trans ?_
                split
                · exact record_overheadCycles ..
                · rfl
              · rw [onEvent_step H hs hb he hf hlt]
                exact record_overheadCycles ..

theorem call_overheadCycles (h : P.WF) (c : Call) : (P.call H c).overheadCycles = P.overheadCycles := by
  cases c with
  | event s => exact onEvent_overheadCycles H h s
  | sweep nowTsc maxAgeCycles => exact sweep_overheadCycles h.spans nowTsc maxAgeCycles
  | abandonAll => exact abandonEach_overheadCycles P P.spans.entries
  | clearIntervals => rfl

end Overhead

/-! ## One span through a run -/

/-- The stamps of one key among the calls. -/
def spanStamps (key : UInt64) (calls : List Call) : List Sample :=
  calls.filterMap fun
    | .event s => if s.isStamp = true ∧ s.key = key then some s else none
    | _ => none

section Span

variable {A : Type} [Accum A] (H : HeapLib)

/-- The calls of `record` that one call makes for the stamps of a key. -/
def callMeasures (key : UInt64) (P : Pairer A) : Call → List Measurement
  | .event s => if s.isStamp = true ∧ s.key = key then P.measures s else []
  | _ => []

variable {P : Pairer A} {s : Sample} {key : UInt64}

/-- A stamp of another span opens nothing under this key and changes no span it leaves open. -/
theorem onEvent_others (h : P.WF) (hs : s.isStamp = true) (hne : s.key ≠ key) {sp : OpenSpan}
    (hk : (P.onEvent H s).spans.find key = some sp) : P.spans.find key = some sp := by
  by_cases hf : ForcesEviction P s
  · obtain ⟨k, sp', P₁, spans, peak, -, hev, hins, heq⟩ := openBegin_full H h hf.closed hf.full
    rw [onEvent_begin H hf.step, heq] at hk
    have hk : spans.find key = some sp := hk
    rw [hins.find, if_neg (Ne.symm hne), hev.removed.find] at hk
    split at hk
    · cases hk
    · exact hk
  · cases onEvent_touched H h hs hf with
    | fewer find queue => exact find key sp hk
    | touched new seen find queue =>
        rw [find, if_neg (Ne.symm hne)] at hk
        exact hk

/-- A step or an end that leaves its span open is an accepted step. -/
theorem onEvent_own (h : P.WF) (hs : s.isStamp = true) (hb : s.step ≠ kBeginStep) {sp' : OpenSpan}
    (hk : (P.onEvent H s).spans.find s.key = some sp') :
    s.step ≠ kEndStep ∧ ∃ sp, P.accepts s = some sp ∧ P.spans.find s.key = some sp ∧ sp.lastTsc ≤ s.timestamp ∧
      sp' = { sp with
        lastTsc := s.timestamp, seenTsc := s.timestamp, lastStep := s.step, transitions := sp.transitions + 1 } := by
  cases hf : P.spans.find s.key with
  | none =>
      rw [onEvent_orphan H hs hb hf, anomalies_spans, hf] at hk
      cases hk
  | some sp =>
      obtain ⟨-, hrem⟩ := OpenMap.erase_present h.spans hf
      have hgone : (P.spans.erase s.key).1.find s.key = none := by rw [hrem.find, if_pos rfl]
      by_cases hlt : s.timestamp < sp.lastTsc
      · rw [onEvent_backwards H hs hb hf hlt] at hk
        exact absurd (hk.symm.trans hgone) nofun
      · by_cases he : s.step = kEndStep
        · rw [onEvent_end H he hf hlt] at hk
          exact absurd (hk.symm.trans hgone) nofun
        · rw [onEvent_step H hs hb he hf hlt] at hk
          have hfind := (OpenMap.modify_present h.spans (fun sp : OpenSpan =>
            { sp with
              lastTsc := s.timestamp, seenTsc := s.timestamp, lastStep := s.step,
              transitions := sp.transitions + 1 }) hf).find s.key
          rw [if_pos rfl] at hfind
          refine ⟨he, sp, ?_, rfl, UInt64.not_lt.mp hlt, Option.some.inj (hk.symm.trans hfind)⟩
          rw [accepts_of_find hs hb hf, if_neg hlt]

/-- A call is a stamp of the key, or does nothing to its span but end it. -/
theorem call_span (key : UInt64) (c : Call) :
    (∃ s, c = .event s ∧ s.isStamp = true ∧ s.key = key ∧ spanStamps key [c] = [s]) ∨
      spanStamps key [c] = [] ∧ ∀ P : Pairer A, callMeasures key P c = [] ∧
        (P.WF → ∀ sp, (P.call H c).spans.find key = some sp → P.spans.find key = some sp) := by
  rcases stampTimes_single c with hnone | ⟨s, rfl, hs, -⟩
  · right
    have hquiet : spanStamps key [c] = [] ∧ ∀ P : Pairer A, callMeasures key P c = [] := by
      cases c with
      | event s =>
          cases hs : s.isStamp with
          | false => exact ⟨by simp [spanStamps, hs], fun P => by simp [callMeasures, hs]⟩
          | true => simp [stampTimes, hs] at hnone
      | sweep nowTsc maxAgeCycles => exact ⟨rfl, fun P => rfl⟩
      | abandonAll => exact ⟨rfl, fun P => rfl⟩
      | clearIntervals => exact ⟨rfl, fun P => rfl⟩
    exact ⟨hquiet.1, fun P => ⟨hquiet.2 P, fun h => (call_fewer H h hnone).1 key⟩⟩
  · by_cases hkey : s.key = key
    · exact Or.inl ⟨s, rfl, hs, hkey, by simp [spanStamps, hs, hkey]⟩
    · refine Or.inr ⟨by simp [spanStamps, hkey], fun P => ⟨by simp [callMeasures, hkey], fun h sp hk => ?_⟩⟩
      exact onEvent_others H h hs hkey hk

end Span

/-! ## A completed span -/

/-- The total of a span with the stamps `b`, `steps` and `e`. -/
def totalMeasure (b : Sample) (steps : List Sample) (e : Sample) : Measurement :=
  ⟨kBeginStep, kBeginStep, e.timestamp - b.timestamp, UInt32.ofNat (steps.length + 1)⟩

section Completed

variable {A : Type} [Accum A] (H : HeapLib)

end Completed

end Pairer

end SlickPerfmon
