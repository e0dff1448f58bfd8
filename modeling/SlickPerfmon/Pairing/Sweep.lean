import SlickPerfmon.Pairing.Ledger
import SlickPerfmon.Stats.Accumulator
import SlickPerfmon.Store.Refinement

/-!
# `erase_if` and `sweep`

One scan removes exactly the entries that satisfy the predicate; a sweep counts each span it removes once, on its own
point as long as the point table has counters for it.
-/

namespace SlickPerfmon

open Library

def PointAnomalies.addAbandoned (a : PointAnomalies) (n : Nat) : PointAnomalies :=
  { a with abandoned := a.abandoned + n }

theorem PointAnomalies.incAbandoned_add (a : PointAnomalies) (n : Nat) :
    (a.addAbandoned n).incAbandoned = a.addAbandoned (n + 1) := rfl

namespace Pairer

variable {A : Type}

/-! ## Counting abandoned spans -/

/-- `++anomalies(span_point(key)).abandoned` for each of the keys. -/
def abandonEach (P : Pairer A) (keys : List UInt64) : Pairer A :=
  keys.foldl (fun P key => P.anomalies (spanPoint key) .incAbandoned) P

/-- How many of the spans are the point's. -/
def spansOf (keys : List UInt64) (p : UInt32) : Nat := keys.countP fun key => spanPoint key = p

/-- Each of the spans was counted once: on its own point if that has counters, else on the overflow bucket, and only
when the point table had no room left for it. -/
structure AbandonedEach (P Q : Pairer A) (keys : List UInt64) : Prop where
  own : ∀ p, (Q.points.find p.toUInt64).isSome = true →
    Q.anomaliesOf p = (P.anomaliesOf p).addAbandoned (spansOf keys p)
  others : ∀ p : UInt32, Q.points.find p.toUInt64 = none → P.points.find p.toUInt64 = none
  overflow : Q.overflow =
    P.overflow.addAbandoned (keys.countP fun key => (Q.points.find (spanPoint key).toUInt64).isNone)
  full : ∀ key ∈ keys, Q.points.find (spanPoint key).toUInt64 = none → Q.points.size = Q.points.maxEntries

/-- A point that has, or gets, counters of its own. -/
theorem AbandonedEach.counted {P Q R : Pairer A} {keys : List UInt64} {key : UInt64} (h : AbandonedEach P Q keys)
    (hfind : ∀ k, R.points.find k =
      if k = (spanPoint key).toUInt64 then some (Q.anomaliesOf (spanPoint key)).incAbandoned else Q.points.find k)
    (hover : R.overflow = Q.overflow) (hmax : R.points.size = R.points.maxEntries ∨ ∀ k ∈ keys,
      Q.points.find (spanPoint k).toUInt64 ≠ none)
    (hnew : Q.points.find (spanPoint key).toUInt64 = none → ∀ k ∈ keys, spanPoint k ≠ spanPoint key) :
    AbandonedEach P R (keys ++ [key]) := by
  have hsame : ∀ p : UInt32, p ≠ spanPoint key → R.points.find p.toUInt64 = Q.points.find p.toUInt64 := fun p hp => by
    rw [hfind, if_neg fun he => hp (toUInt64_inj he)]
  have hself : R.points.find (spanPoint key).toUInt64 = some (Q.anomaliesOf (spanPoint key)).incAbandoned := by
    rw [hfind, if_pos rfl]
  refine ⟨fun p hp => ?_, fun p hp => ?_, ?_, fun k hk hn => ?_⟩
  · rw [spansOf, List.countP_append]
    by_cases hpk : p = spanPoint key
    · subst hpk
      have hof : R.anomaliesOf (spanPoint key) = (Q.anomaliesOf (spanPoint key)).incAbandoned := by
        rw [anomaliesOf, hself]
        rfl
      rw [hof]
      cases hq : Q.points.find (spanPoint key).toUInt64 with
      | some a =>
          rw [h.own _ (by rw [hq]; rfl), PointAnomalies.incAbandoned_add]
          simp [spansOf]
      | none =>
          -- the first span counted on this point
          have hzero : keys.countP (fun k => spanPoint k = spanPoint key) = 0 :=
            List.countP_eq_zero.mpr fun k hk => by simpa using hnew hq k hk
          have hold : P.anomaliesOf (spanPoint key) = Q.anomaliesOf (spanPoint key) := by
            rw [anomaliesOf, anomaliesOf, hq, h.others _ hq]
          rw [hzero, hold]
          simp [PointAnomalies.addAbandoned, PointAnomalies.incAbandoned]
    · have hof : R.anomaliesOf p = Q.anomaliesOf p := by rw [anomaliesOf, anomaliesOf, hsame p hpk]
      rw [hof, h.own p (by rw [← hsame p hpk]; exact hp)]
      simp [spansOf, Ne.symm hpk]
  · by_cases hpk : p = spanPoint key
    · subst hpk
      rw [hself] at hp
      cases hp
    · exact h.others p (by rw [← hsame p hpk]; exact hp)
  · have hcount : keys.countP (fun k => (R.points.find (spanPoint k).toUInt64).isNone) =
        keys.countP fun k => (Q.points.find (spanPoint k).toUInt64).isNone := by
      refine List.countP_congr fun k hk => ?_
      by_cases hpk : spanPoint k = spanPoint key
      · rw [hpk, hself]
        cases hq : Q.points.find (spanPoint key).toUInt64 with
        | some a => simp
        | none => exact absurd hpk (hnew hq k hk)
      · rw [hsame _ hpk]
    rw [hover, h.overflow, List.countP_append, hcount]
    simp [hself]
  · rcases List.mem_append.mp hk with hk | hk
    · rcases hmax with hmax | hnone
      · exact hmax
      · have hpk : spanPoint k ≠ spanPoint key := fun hpk => by
          rw [hpk, hself] at hn
          cases hn
        rw [hsame _ hpk] at hn
        exact absurd hn (hnone k hk)
    · rw [List.mem_singleton.mp hk, hself] at hn
      cases hn

theorem AbandonedEach.step {P Q : Pairer A} {keys : List UInt64} (h : AbandonedEach P Q keys) (hwf : Q.points.WF)
    (key : UInt64) : AbandonedEach P (Q.anomalies (spanPoint key) .incAbandoned) (keys ++ [key]) := by
  rcases anomalies_cases (spanPoint key) .incAbandoned hwf with
    ⟨a, ha, hm, ho⟩ | ⟨hn, hroom, ⟨m, hi, hm⟩, ho⟩ | ⟨hn, hfull, hp, ho⟩
  · have hof : Q.anomaliesOf (spanPoint key) = a := by rw [anomaliesOf, ha]; rfl
    refine h.counted (fun k => by rw [hm.find, hof]) ho ?_ fun hq => by rw [ha] at hq; cases hq
    by_cases hall : ∀ k ∈ keys, Q.points.find (spanPoint k).toUInt64 ≠ none
    · exact Or.inr hall
    · simp only [not_forall, not_not] at hall
      obtain ⟨k, hk, hq⟩ := hall
      have := h.full k hk hq
      exact Or.inl (by rw [hm.size, hm.maxEntries, this])
  · have hof : Q.anomaliesOf (spanPoint key) = {} := by rw [anomaliesOf, hn]; rfl
    have hall : ∀ k ∈ keys, Q.points.find (spanPoint k).toUInt64 ≠ none := fun k hk hq => by
      have := h.full k hk hq
      omega
    refine h.counted (fun k => ?_) ho (Or.inr hall) fun _ k hk heq => hall k hk (by rw [heq]; exact hn)
    rw [hm.find, hi.find, hof]
    split <;> rfl
  · refine ⟨fun p hown => ?_, fun p hnone => ?_, ?_, fun k hk hq => ?_⟩
    · rw [hp] at hown
      have hpk : spanPoint key ≠ p := by
        rintro rfl
        rw [hn] at hown
        cases hown
      have hof : (Q.anomalies (spanPoint key) .incAbandoned).anomaliesOf p = Q.anomaliesOf p := by
        rw [anomaliesOf, anomaliesOf, hp]
      rw [hof, h.own p hown, spansOf, spansOf, List.countP_append]
      simp [hpk]
    · rw [hp] at hnone
      exact h.others p hnone
    · rw [ho, h.overflow, hp, List.countP_append, PointAnomalies.incAbandoned_add]
      simp [hn]
    · rw [hp]
      exact hfull

theorem abandonEach_spec {P : Pairer A} (h : P.points.WF) (keys : List UInt64) :
    (P.abandonEach keys).points.WF ∧ AbandonedEach P (P.abandonEach keys) keys := by
  induction keys using List.reverseRecOn with
  | nil => exact ⟨h, fun p _ => rfl, fun _ hn => hn, rfl, fun key hk => by cases hk⟩
  | append_singleton keys key ih =>
      obtain ⟨hwf, hown, hothers, hover, hfull⟩ := ih
      have hstep : P.abandonEach (keys ++ [key]) = (P.abandonEach keys).anomalies (spanPoint key) .incAbandoned := by
        rw [abandonEach, List.foldl_append]
        rfl
      rw [hstep]
      generalize P.abandonEach keys = Q at hwf hown hothers hover hfull ⊢
      refine ⟨anomalies_points_wf hwf, ?_⟩
      exact (⟨hown, hothers, hover, hfull⟩ : AbandonedEach P Q keys).step hwf key

/-! ## The sweep -/

/-- The spans a sweep takes: untouched for longer than the age, which is 0 where sweeping is off. -/
def expired (nowTsc maxAgeCycles : UInt64) (sp : OpenSpan) : Bool :=
  maxAgeCycles ≠ 0 ∧ nowTsc > sp.seenTsc ∧ nowTsc - sp.seenTsc > maxAgeCycles

theorem sweepPred_eq {nowTsc maxAgeCycles : UInt64} (hage : maxAgeCycles ≠ 0) :
    (sweepPred nowTsc maxAgeCycles : Pairer A → UInt64 → OpenSpan → Bool × Pairer A) =
      OpenMap.pureWhenFalse (fun _ sp => expired nowTsc maxAgeCycles sp)
        fun P key _ => P.anomalies (spanPoint key) .incAbandoned := by
  funext P key sp
  unfold sweepPred OpenMap.pureWhenFalse expired
  by_cases h : nowTsc > sp.seenTsc ∧ nowTsc - sp.seenTsc > maxAgeCycles
  · rw [if_pos h]
    simp [hage, h]
  · rw [if_neg h]
    simp [hage, h]

/-- What `sweep` leaves: the spans `removed` are gone and counted. -/
structure Swept (nowTsc maxAgeCycles : UInt64) (P : Pairer A) (removed : List (UInt64 × OpenSpan))
    (out : Pairer A × Nat) : Prop where
  expired : removed.Perm (P.spans.entries.filter fun e => expired nowTsc maxAgeCycles e.2)
  count : out.2 = removed.length
  spans : out.1.spans.WF
  find : ∀ k, out.1.spans.find k = (P.spans.find k).filter fun sp => !Pairer.expired nowTsc maxAgeCycles sp
  counted : AbandonedEach P out.1 (removed.map Prod.fst)
  stages : out.1.stages = P.stages
  queue : out.1.evictQueue = P.evictQueue ∧ out.1.evictNext = P.evictNext

theorem sweep_spec {P : Pairer A} (h : P.WF) (nowTsc maxAgeCycles : UInt64) :
    ∃ removed, Swept nowTsc maxAgeCycles P removed (P.sweep nowTsc maxAgeCycles) := by
  by_cases hage : maxAgeCycles = 0
  · refine ⟨[], ?_⟩
    rw [sweep, if_pos hage]
    have hno : ∀ sp, expired nowTsc maxAgeCycles sp = false := fun sp => by simp [expired, hage]
    refine ⟨by simp [hno], rfl, h.spans, fun k => ?_, (abandonEach_spec h.points []).2, rfl, rfl, rfl⟩
    cases P.spans.find k <;> simp [hno, Option.filter]
  · obtain ⟨removed, out, hrun, hout⟩ := OpenMap.eraseIf_spec (fun _ sp => expired nowTsc maxAgeCycles sp)
      (fun (P : Pairer A) key _ => P.anomalies (spanPoint key) .incAbandoned) h.spans P
    have hstate : out.2.1 = P.abandonEach (removed.map Prod.fst) := by
      rw [hout.state, abandonEach, List.foldl_map]
    have hkept : ∀ (keys : List UInt64) (Q : Pairer A), (Q.abandonEach keys).stages = Q.stages ∧
        (Q.abandonEach keys).evictQueue = Q.evictQueue ∧ (Q.abandonEach keys).evictNext = Q.evictNext := by
      intro keys
      induction keys with
      | nil => exact fun _ => ⟨rfl, rfl, rfl⟩
      | cons key keys ih =>
          intro Q
          obtain ⟨hs, hq, hn⟩ := ih (Q.anomalies (spanPoint key) .incAbandoned)
          exact ⟨hs.trans (anomalies_stages ..), hq.trans (anomalies_evictQueue ..), hn.trans (anomalies_evictNext ..)⟩
    have hsweep : P.sweep nowTsc maxAgeCycles =
        ({ P.abandonEach (removed.map Prod.fst) with spans := out.1 }, out.2.2) := by
      rw [sweep, if_neg hage, sweepPred_eq hage, OpenMap.eraseIf_eq hrun, ← hstate]
    obtain ⟨-, hcounted⟩ := abandonEach_spec h.points (removed.map Prod.fst)
    rw [hsweep]
    exact ⟨removed, hout.perm_filter, hout.count, hout.wf, hout.find h.spans,
      ⟨hcounted.own, hcounted.others, hcounted.overflow, hcounted.full⟩, (hkept _ P).1, (hkept _ P).2⟩

end Pairer

/-- After any calls, `erase_if` ends, and removes exactly the entries that satisfy a predicate of the key and the
value: it is true for each of them once and never again. A sweep after any run removes exactly the expired spans and
counts each once. -/
theorem eraseIf_exact {V A : Type} [Accum A] (maxEntries : UInt32) (calls : List (MapCall V))
    (p : UInt64 → V → Bool) (H : HeapLib) (cfg : Config) (pairerCalls : List Call) (nowTsc maxAgeCycles : UInt64) :
    (let m : OpenMap V := ((OpenMap.reset maxEntries).runCalls calls).1
      ∃ m' seen n,
        OpenMap.eraseIfLoop (OpenMap.pureWhenFalse p fun seen key v => seen ++ [(key, v)]) (m.cap + m.size + 1) 0 m [] 0 =
          some (m', seen, n) ∧
        n = (m.entries.filter fun e => p e.1 e.2).length ∧ seen.Perm (m.entries.filter fun e => p e.1 e.2) ∧
        (m.entries.map Prod.fst).Nodup ∧ m'.WF ∧ ∀ k, m'.find k = (m.find k).filter fun v => !p k v) ∧
    (let P : Pairer A := (runCalls H cfg pairerCalls).1
      ∃ removed, Pairer.Swept nowTsc maxAgeCycles P removed (P.sweep nowTsc maxAgeCycles)) := by
  refine ⟨?_, Pairer.sweep_spec (balanced_run H cfg pairerCalls).wf nowTsc maxAgeCycles⟩
  obtain ⟨h, -⟩ := (Represents.reset (V := V) maxEntries).runCalls calls
  obtain ⟨removed, ⟨m', seen, n⟩, hrun, hout⟩ :=
    OpenMap.eraseIf_spec p (fun seen key v => seen ++ [(key, v)]) h.wf []
  have hseen : ∀ (l start : List (UInt64 × V)), l.foldl (fun seen e => seen ++ [(e.1, e.2)]) start = start ++ l := by
    intro l
    induction l with
    | nil => simp
    | cons e l ih => simp [ih]
  obtain rfl : seen = removed := by
    have hstate := hout.state
    rwa [hseen, List.nil_append] at hstate
  exact ⟨m', seen, n, hrun, hout.count.trans hout.perm_filter.length_eq, hout.perm_filter,
    OpenMap.entries_keys_nodup h.wf, hout.wf, hout.find h.wf⟩

/-- Two open spans of two points, and a point table with room for one. -/
def twoOldSpans : List Call :=
  [.event ⟨10, 1, makeEvent kBeginStep 5⟩, .event ⟨10, 2, makeEvent kBeginStep 5⟩]

/-- A sweep removes both and counts one of them on the overflow bucket, not on its own point. -/
theorem swept_span_counts_on_the_overflow_bucket :
    let P : Pairer (Accumulator 4) := (runCalls sortingLib ⟨2, 1⟩ twoOldSpans).1
    let P' := (P.sweep 100 50).1
    P.spans.find (spanKey 1 5) = some ⟨10, 10, 10, 0, kBeginStep⟩ ∧
    P.spans.find (spanKey 2 5) = some ⟨10, 10, 10, 0, kBeginStep⟩ ∧ (P.sweep 100 50).2 = 2 ∧
    (P'.anomaliesOf 1).abandoned + (P'.anomaliesOf 2).abandoned = 1 ∧ P'.overflow.abandoned = 1 := by
  decide

end SlickPerfmon
