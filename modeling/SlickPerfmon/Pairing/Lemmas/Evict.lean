import SlickPerfmon.Pairing.Lemmas.Events

/-!
# Eviction

When the span table is full, `evict_oldest` removes one span, however stale its queue is: a queue that runs
out is filled again from the table, and every candidate of a fresh queue is live.
-/

namespace SlickPerfmon.Pairer

open Library

variable {A : Type}

theorem newestFirst_strictWeak : StrictWeak newestFirst := by
  have hkey : newestFirst = fun a b => decide (a.seenTsc.toNat < b.seenTsc.toNat) := by
    funext a b
    simp only [newestFirst, UInt64.lt_iff_toNat_lt]
  rw [hkey]
  exact StrictWeak.ofKey _

/-! ## One eviction -/

/-- The span of `k` is gone, and one abandoned span counted on its own point. -/
structure Evicted (P : Pairer A) (k : UInt64) (sp : OpenSpan) (P' : Pairer A) : Prop where
  removed : OpenMap.Removed P.spans k sp P'.spans
  points : P'.points = (P.anomalies (spanPoint k) .incAbandoned).points
  overflow : P'.overflow = (P.anomalies (spanPoint k) .incAbandoned).overflow
  stages : P'.stages = P.stages
  overhead : P'.overheadCycles = P.overheadCycles
  batch : P'.evictBatch = P.evictBatch

/-- `anomalies` reads nothing but the point table and the overflow bucket. -/
theorem anomalies_congr {P Q : Pairer A} (hp : P.points = Q.points) (ho : P.overflow = Q.overflow)
    (p : UInt32) (inc : PointAnomalies → PointAnomalies) :
    (P.anomalies p inc).points = (Q.anomalies p inc).points ∧
      (P.anomalies p inc).overflow = (Q.anomalies p inc).overflow := by
  unfold anomalies
  rw [hp, ho]
  cases Q.points.find p.toUInt64 with
  | some a => exact ⟨rfl, rfl⟩
  | none =>
      rcases Q.points.insert p.toUInt64 {} with ⟨m, _ | a⟩
      · exact ⟨rfl, rfl⟩
      · exact ⟨rfl, rfl⟩

/-- The queue's candidates are either all passed over, or one of them that is still as the scan saw it is
evicted. -/
theorem tryCandidates_spec (cs : List EvictCandidate) {P : Pairer A} (h : P.spans.WF) :
    (∃ c ∈ cs, ∃ sp, P.spans.find c.key = some sp ∧ sp.seenTsc = c.seenTsc ∧
      (P.tryCandidates cs).2 = true ∧ Evicted P c.key sp (P.tryCandidates cs).1) ∨
    ((∀ c ∈ cs, ∀ sp, P.spans.find c.key = some sp → sp.seenTsc ≠ c.seenTsc) ∧
      P.tryCandidates cs = ({ P with evictNext := P.evictNext + cs.length }, false)) := by
  induction cs generalizing P with
  | nil => exact Or.inr ⟨fun c hc => absurd hc (List.not_mem_nil), rfl⟩
  | cons c rest ih =>
      -- passing over the first candidate moves the cursor and nothing else
      have hskip : (∀ sp, P.spans.find c.key = some sp → sp.seenTsc ≠ c.seenTsc) →
          P.tryCandidates (c :: rest) = { P with evictNext := P.evictNext + 1 }.tryCandidates rest := by
        intro hstale
        cases hf : P.spans.find c.key with
        | none => simp only [tryCandidates, hf]
        | some sp => simp only [tryCandidates, hf, hstale sp hf, if_false]
      by_cases hlive : ∃ sp, P.spans.find c.key = some sp ∧ sp.seenTsc = c.seenTsc
      · obtain ⟨sp, hf, hseen⟩ := hlive
        left
        obtain ⟨-, hrem⟩ := OpenMap.erase_present h hf
        have hcongr := anomalies_congr (P := { P with evictNext := P.evictNext + 1 }) (Q := P) rfl rfl
          (spanPoint c.key) .incAbandoned
        refine ⟨c, List.mem_cons_self, sp, hf, hseen, ?_⟩
        simp only [tryCandidates, hf, hseen, if_true, anomalies_spans, true_and]
        exact
          { removed := hrem
            points := hcongr.1
            overflow := hcongr.2
            stages := anomalies_stages ..
            overhead := anomalies_overheadCycles ..
            batch := anomalies_evictBatch .. }
      · have hstale : ∀ sp, P.spans.find c.key = some sp → sp.seenTsc ≠ c.seenTsc :=
          fun sp hf hs => hlive ⟨sp, hf, hs⟩
        rw [hskip hstale]
        rcases ih (P := { P with evictNext := P.evictNext + 1 }) h with
          ⟨c', hc', sp, hf, hs, htrue, hev⟩ | ⟨hall, heq⟩
        · left
          have hcongr := anomalies_congr (P := { P with evictNext := P.evictNext + 1 }) (Q := P) rfl rfl
            (spanPoint c'.key) .incAbandoned
          exact ⟨c', List.mem_cons_of_mem _ hc', sp, hf, hs, htrue, hev.removed,
            hev.points.trans hcongr.1, hev.overflow.trans hcongr.2, hev.stages, hev.overhead, hev.batch⟩
        · right
          refine ⟨fun c' hc' => ?_, ?_⟩
          · rcases List.mem_cons.mp hc' with rfl | hc'
            · exact hstale
            · exact hall c' hc'
          · rw [heq, List.length_cons]
            simp only [Prod.mk.injEq, and_true, Pairer.mk.injEq, true_and]
            omega

/-! ## The queue after a scan -/

section Refill

variable (H : HeapLib)

/-- What a scan nominates comes from the table. -/
theorem refill_mem (batch : Nat) (es : List (UInt64 × OpenSpan)) (scan : Nat × List EvictCandidate)
    {c : EvictCandidate} (hc : c ∈ (es.foldl (refillStep H batch) scan).2) :
    c ∈ scan.2 ∨ ∃ e ∈ es, c = ⟨e.1, e.2.seenTsc⟩ := by
  have hperm := fun n l => H.perm newestFirst_strictWeak n (l : List EvictCandidate)
  induction es generalizing scan with
  | nil => exact Or.inl hc
  | cons e es ih =>
      rcases ih _ hc with hq | ⟨e', he', rfl⟩
      · have hstep : c ∈ scan.2 ∨ c = ⟨e.1, e.2.seenTsc⟩ := by
          simp only [refillStep] at hq
          split at hq
          · simpa using (hperm _ _).mem_iff.mp hq
          · split at hq
            · split at hq
              · rcases List.mem_append.mp ((hperm _ _).mem_iff.mp hq) with hd | hl
                · exact Or.inl ((H.popHeap_perm _ newestFirst_strictWeak _).mem_iff.mp
                    (List.dropLast_subset _ hd))
                · exact Or.inr (List.mem_singleton.mp hl)
              · exact Or.inl hq
            · exact Or.inl hq
        rcases hstep with hq | rfl
        · exact Or.inl hq
        · exact Or.inr ⟨e, List.mem_cons_self, rfl⟩
      · exact Or.inr ⟨e', List.mem_cons_of_mem _ he', rfl⟩

theorem refillStep_ne_nil {batch : Nat} (hb : 0 < batch) (scan : Nat × List EvictCandidate)
    (e : UInt64 × OpenSpan) : (refillStep H batch scan e).2 ≠ [] := by
  have hpush : ∀ n (l : List EvictCandidate) c, H.pushHeap newestFirst n (l ++ [c]) ≠ [] := by
    intro n l c h0
    have := (H.perm newestFirst_strictWeak n (l ++ [c])).length_eq
    rw [show H.arrange newestFirst n (l ++ [c]) = [] from h0] at this
    simp at this
  simp only [refillStep]
  split
  · exact hpush _ _ _
  · rename_i hlen
    split
    · split
      · exact hpush _ _ _
      · rename_i hhead _
        intro hnil
        rw [show scan.2 = [] from hnil] at hhead
        cases hhead
    · rename_i hhead
      rw [List.head?_eq_none_iff.mp hhead] at hlen
      exact absurd hb hlen

theorem refill_ne_nil {batch : Nat} (hb : 0 < batch) {es : List (UInt64 × OpenSpan)} (he : es ≠ []) :
    (es.foldl (refillStep H batch) (0, [])).2 ≠ [] := by
  rcases List.eq_nil_or_concat es with rfl | ⟨front, e, rfl⟩
  · exact absurd rfl he
  · rw [List.concat_eq_append, List.foldl_append]
    exact refillStep_ne_nil H hb _ e

/-- The candidates of a fresh queue are spans of the table, as they are in it. -/
theorem refillEvictQueue_spec {P : Pairer A} (h : P.WF) (hne : P.spans.entries ≠ []) :
    ∃ queue, P.refillEvictQueue H = { P with evictQueue := queue, evictNext := 0 } ∧ queue ≠ [] ∧
      ∀ c ∈ queue, ∃ sp, P.spans.find c.key = some sp ∧ sp.seenTsc = c.seenTsc := by
  set scan := P.spans.entries.foldl (refillStep H P.evictBatch) (0, []) with hscan
  have hperm := H.sortHeap_perm scan.1 newestFirst_strictWeak scan.2.length scan.2
  refine ⟨H.sortHeap newestFirst scan.1 scan.2.length scan.2, rfl, ?_, ?_⟩
  · intro h0
    rw [h0] at hperm
    exact refill_ne_nil H h.batch hne hperm.nil_eq.symm
  · intro c hc
    rcases refill_mem H _ _ _ (hperm.mem_iff.mp hc) with h0 | ⟨e, he, rfl⟩
    · exact absurd h0 (List.not_mem_nil)
    · exact ⟨e.2, (OpenMap.find_eq_some h.spans).mpr he, rfl⟩

end Refill

/-- A full table loses exactly one span. -/
theorem evictOldest_spec (H : HeapLib) {P : Pairer A} (h : P.WF) (hne : P.spans.entries ≠ []) :
    ∃ k sp, P.spans.find k = some sp ∧ Evicted P k sp (P.evictOldest H) := by
  rcases tryCandidates_spec (P.evictQueue.drop P.evictNext) h.spans with
    ⟨c, -, sp, hf, -, htrue, hev⟩ | ⟨-, heq⟩
  · refine ⟨c.key, sp, hf, ?_⟩
    have hrun : P.evictOldest H = (P.tryCandidates (P.evictQueue.drop P.evictNext)).1 := by
      cases ht : P.tryCandidates (P.evictQueue.drop P.evictNext) with
      | mk P' b => rw [ht] at htrue; cases htrue; simp only [evictOldest, evictPass, ht]
    rw [hrun]
    exact hev
  · -- the queue ran out: the second pass starts on a fresh queue, whose first candidate is live
    set P₀ : Pairer A := { P with evictNext := P.evictNext + (P.evictQueue.drop P.evictNext).length }
    obtain ⟨queue, hq, hqne, hlive⟩ := refillEvictQueue_spec H (P := P₀)
      ⟨h.spans, h.stages, h.points, h.batch⟩ hne
    have hpass : P.evictPass H = ({ P with evictQueue := queue, evictNext := 0 }, false) := by
      simp only [evictPass, heq]
      rw [hq]
      cases queue with
      | nil => exact absurd rfl hqne
      | cons _ _ => rfl
    set P₁ : Pairer A := { P with evictQueue := queue, evictNext := 0 } with hP₁
    have hsecond : P.evictOldest H = (P₁.evictPass H).1 := by simp only [evictOldest, hpass]
    rcases tryCandidates_spec (P := P₁) (P₁.evictQueue.drop P₁.evictNext) h.spans with
      ⟨c, -, sp, hf, -, htrue, hev⟩ | ⟨hall, -⟩
    · refine ⟨c.key, sp, hf, ?_⟩
      have hrun : (P₁.evictPass H).1 = (P₁.tryCandidates (P₁.evictQueue.drop P₁.evictNext)).1 := by
        cases ht : P₁.tryCandidates (P₁.evictQueue.drop P₁.evictNext) with
        | mk P' b => rw [ht] at htrue; cases htrue; simp only [evictPass, ht]
      have hcongr := anomalies_congr (P := P₁) (Q := P) rfl rfl (spanPoint c.key) .incAbandoned
      rw [hsecond, hrun]
      exact ⟨hev.removed, hev.points.trans hcongr.1, hev.overflow.trans hcongr.2, hev.stages,
        hev.overhead, hev.batch⟩
    · obtain ⟨c, hc⟩ := List.exists_mem_of_ne_nil queue hqne
      obtain ⟨sp, hf, hs⟩ := hlive c hc
      exact absurd hs (hall c (by simpa [hP₁] using hc) sp hf)

/-- A begin of a closed key on a full table makes room first. -/
theorem openBegin_evicts (H : HeapLib) {P : Pairer A} (h : P.WF) {s : Sample} (hf : P.spans.find s.key = none)
    (hfull : P.spans.size = P.spans.maxEntries) :
    ∃ peak, P.openBegin H s.key s =
      { P.evictOldest H with
        spans := ((P.evictOldest H).spans.insert s.key (freshSpan s)).1
        peakOpen := peak } := by
  have hi := OpenMap.insert_full (w := freshSpan s) h.spans hf hfull
  refine ⟨if ((P.evictOldest H).spans.insert s.key (freshSpan s)).1.size > (P.evictOldest H).peakOpen then
    ((P.evictOldest H).spans.insert s.key (freshSpan s)).1.size else (P.evictOldest H).peakOpen, ?_⟩
  simp only [freshSpan] at hi ⊢
  simp only [openBegin, hf, hi]
  rfl

theorem entries_ne_nil_of_full {P : Pairer A} (h : P.WF) (hfull : P.spans.size = P.spans.maxEntries) :
    P.spans.entries ≠ [] := by
  intro h0
  have hsize := h.spans.size_eq
  have hpos := h.spans.pos
  rw [h0, List.length_nil] at hsize
  omega

/-- A begin of a closed key on a full table evicts one span and takes its place. -/
theorem openBegin_full (H : HeapLib) {P : Pairer A} (h : P.WF) {s : Sample}
    (hf : P.spans.find s.key = none) (hfull : P.spans.size = P.spans.maxEntries) :
    ∃ k sp P₁ spans peak, P.spans.find k = some sp ∧ Evicted P k sp P₁ ∧
      OpenMap.Inserted P₁.spans s.key (freshSpan s) spans ∧
      P.openBegin H s.key s = { P₁ with spans := spans, peakOpen := peak } := by
  obtain ⟨k, sp, hk, hev⟩ := evictOldest_spec H h (entries_ne_nil_of_full h hfull)
  have hclosed : (P.evictOldest H).spans.find s.key = none := by
    rw [hev.removed.find]
    split
    · rfl
    · exact hf
  obtain ⟨-, hins⟩ := OpenMap.insert_new (w := freshSpan s) hev.removed.wf hclosed (by
    have := hev.removed.size
    have := hev.removed.maxEntries
    omega)
  obtain ⟨peak, hopen⟩ := openBegin_evicts H h hf hfull
  exact ⟨k, sp, _, _, peak, hk, hev, hins, hopen⟩

end SlickPerfmon.Pairer
