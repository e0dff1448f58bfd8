import SlickPerfmon.Pairing.Ledger
import SlickPerfmon.Pairing.Sweep

/-!
# The order of eviction

The queue that one scan fills stays good for later evictions: every open span is still queued as the scan saw it, or
was touched no earlier than anything left in the queue. So the first candidate that still matches is the oldest span.
-/

namespace SlickPerfmon

open Library

namespace Pairer

variable {A : Type}

/-! ## The queue -/

/-- The candidates not tried yet. -/
def waiting (P : Pairer A) : List EvictCandidate := P.evictQueue.drop P.evictNext

/-- The queue is in the order of the scan, and a span that is not in it is no older than what is. -/
structure Ordered (spans : OpenMap OpenSpan) (queue : List EvictCandidate) : Prop where
  sorted : queue.Pairwise fun a b => a.seenTsc ≤ b.seenTsc
  covered : ∀ k sp, spans.find k = some sp → ⟨k, sp.seenTsc⟩ ∈ queue ∨ ∀ c ∈ queue, c.seenTsc ≤ sp.seenTsc

/-- No open span was touched earlier. -/
def Oldest (spans : OpenMap OpenSpan) (k : UInt64) (sp : OpenSpan) : Prop :=
  spans.find k = some sp ∧ ∀ k' sp', spans.find k' = some sp' → sp.seenTsc ≤ sp'.seenTsc

theorem Ordered.nil (spans : OpenMap OpenSpan) : Ordered spans [] :=
  ⟨List.Pairwise.nil, fun _ _ _ => Or.inr fun c hc => by cases hc⟩

/-- A candidate that still matches is the oldest span. -/
theorem Ordered.head {spans : OpenMap OpenSpan} {c : EvictCandidate} {rest : List EvictCandidate}
    (h : Ordered spans (c :: rest)) {sp : OpenSpan} (hf : spans.find c.key = some sp) (hs : sp.seenTsc = c.seenTsc) :
    Oldest spans c.key sp := by
  refine ⟨hf, fun k' sp' hf' => ?_⟩
  rw [hs]
  rcases h.covered k' sp' hf' with hmem | hall
  · rcases List.mem_cons.mp hmem with heq | hmem
    · rw [← heq]
      exact UInt64.le_refl _
    · exact (List.pairwise_cons.mp h.sorted).1 _ hmem
  · exact hall c List.mem_cons_self

/-- Passing over a candidate that no longer matches. -/
theorem Ordered.skip {spans : OpenMap OpenSpan} {c : EvictCandidate} {rest : List EvictCandidate}
    (h : Ordered spans (c :: rest)) (hstale : ∀ sp, spans.find c.key = some sp → sp.seenTsc ≠ c.seenTsc) :
    Ordered spans rest := by
  refine ⟨(List.pairwise_cons.mp h.sorted).2, fun k sp hf => ?_⟩
  rcases h.covered k sp hf with hmem | hall
  · rcases List.mem_cons.mp hmem with heq | hmem
    · subst heq
      exact absurd rfl (hstale sp hf)
    · exact Or.inl hmem
  · exact Or.inr fun c' hc' => hall c' (List.mem_cons_of_mem _ hc')

/-- Once the candidate itself is gone, nothing open is lost with it. -/
theorem Ordered.evict {spans spans' : OpenMap OpenSpan} {c : EvictCandidate} {rest : List EvictCandidate}
    (h : Ordered spans (c :: rest))
    (hfind : ∀ k, spans'.find k = if k = c.key then none else spans.find k) : Ordered spans' rest := by
  refine ⟨(List.pairwise_cons.mp h.sorted).2, fun k sp hf => ?_⟩
  rw [hfind] at hf
  split at hf
  · cases hf
  · rename_i hne
    rcases h.covered k sp hf with hmem | hall
    · rcases List.mem_cons.mp hmem with heq | hmem
      · exact absurd (by rw [← heq]) hne
      · exact Or.inl hmem
    · exact Or.inr fun c' hc' => hall c' (List.mem_cons_of_mem _ hc')

/-- Spans that go away leave the queue good. -/
theorem Ordered.mono {spans spans' : OpenMap OpenSpan} {queue : List EvictCandidate} (h : Ordered spans queue)
    (hfind : ∀ k sp, spans'.find k = some sp → spans.find k = some sp) : Ordered spans' queue :=
  ⟨h.sorted, fun k sp hf => h.covered k sp (hfind k sp hf)⟩

/-- A span touched now is no older than anything in the queue. -/
theorem Ordered.touch {spans spans' : OpenMap OpenSpan} {queue : List EvictCandidate} (h : Ordered spans queue)
    {key : UInt64} {new : OpenSpan} (hnew : ∀ c ∈ queue, c.seenTsc ≤ new.seenTsc)
    (hfind : ∀ k, spans'.find k = if k = key then some new else spans.find k) : Ordered spans' queue := by
  refine ⟨h.sorted, fun k sp hf => ?_⟩
  rw [hfind] at hf
  split at hf
  · cases hf
    exact Or.inr hnew
  · exact h.covered k sp hf

/-! ## A fresh queue -/

section Refill

variable (H : HeapLib)

/-- What the scan has kept after the entries `done`: once the queue is full, the oldest of them. -/
structure Scanning (batch : Nat) (done : List (UInt64 × OpenSpan)) (queue : List EvictCandidate) : Prop where
  heap : IsHeap newestFirst queue
  covered : ∀ e ∈ done, ⟨e.1, e.2.seenTsc⟩ ∈ queue ∨
    batch ≤ queue.length ∧ ∀ c ∈ queue, c.seenTsc ≤ e.2.seenTsc

theorem not_newestFirst {a b : EvictCandidate} : newestFirst a b = false ↔ b.seenTsc ≤ a.seenTsc := by
  simp [newestFirst]

theorem Scanning.step {batch n : Nat} (hb : 0 < batch) {done : List (UInt64 × OpenSpan)} {queue : List EvictCandidate}
    (h : Scanning batch done queue) (e : UInt64 × OpenSpan) :
    Scanning batch (done ++ [e]) (refillStep H batch (n, queue) e).2 := by
  have hperm := fun n l => H.perm newestFirst_strictWeak n (l : List EvictCandidate)
  have hheap := fun n l => H.heap newestFirst_strictWeak n (l : List EvictCandidate)
  unfold refillStep HeapLib.pushHeap
  simp only
  split
  · -- while there is room nothing is left out
    rename_i hroom
    refine ⟨hheap _ _, fun e' he' => Or.inl ((hperm _ _).mem_iff.mpr ?_)⟩
    rcases List.mem_append.mp he' with he' | he'
    · rcases h.covered e' he' with hmem | ⟨hfull, -⟩
      · exact List.mem_append_left _ hmem
      · omega
    · rw [List.mem_singleton.mp he']
      exact List.mem_append_right _ (List.mem_singleton_self _)
  · rename_i hfull
    obtain ⟨front, rest, rfl⟩ : ∃ front rest, queue = front :: rest := by
      cases queue with
      | nil => exact absurd hb hfull
      | cons front rest => exact ⟨front, rest, rfl⟩
    have hfront : ∀ c ∈ front :: rest, c.seenTsc ≤ front.seenTsc := fun c hc =>
      not_newestFirst.mp (h.heap.front newestFirst_strictWeak c hc)
    simp only [List.head?_cons]
    split
    · -- the newest of the queue makes place for an older span
      rename_i holder
      simp only [HeapLib.popHeap, List.dropLast_concat]
      have hmem : ∀ c, c ∈ H.arrange newestFirst (n + 1) (H.arrange newestFirst n rest ++ [⟨e.1, e.2.seenTsc⟩]) ↔
          c ∈ rest ∨ c = ⟨e.1, e.2.seenTsc⟩ := fun c => by
        rw [(hperm _ _).mem_iff, List.mem_append, (hperm n rest).mem_iff, List.mem_singleton]
      have hlen : (H.arrange newestFirst (n + 1) (H.arrange newestFirst n rest ++ [⟨e.1, e.2.seenTsc⟩])).length =
          (front :: rest).length := by
        rw [(hperm _ _).length_eq, List.length_append, (hperm n rest).length_eq]
        rfl
      have hall : ∀ ts, front.seenTsc ≤ ts →
          ∀ c ∈ H.arrange newestFirst (n + 1) (H.arrange newestFirst n rest ++ [⟨e.1, e.2.seenTsc⟩]),
            c.seenTsc ≤ ts := by
        intro ts hts c hc
        rcases (hmem c).mp hc with hc | rfl
        · exact UInt64.le_trans (hfront c (List.mem_cons_of_mem _ hc)) hts
        · exact UInt64.le_trans (UInt64.le_of_lt holder) hts
      refine ⟨hheap _ _, fun e' he' => ?_⟩
      rcases List.mem_append.mp he' with he' | he'
      · rcases h.covered e' he' with hold | ⟨-, hle⟩
        · rcases List.mem_cons.mp hold with heq | hold
          · refine Or.inr ⟨by omega, hall _ ?_⟩
            rw [← heq]
            exact UInt64.le_refl _
          · exact Or.inl ((hmem _).mpr (Or.inl hold))
        · exact Or.inr ⟨by omega, hall _ (hle front List.mem_cons_self)⟩
      · rw [List.mem_singleton.mp he']
        exact Or.inl ((hmem _).mpr (Or.inr rfl))
    · rename_i hnewer
      refine ⟨h.heap, fun e' he' => ?_⟩
      rcases List.mem_append.mp he' with he' | he'
      · exact h.covered e' he'
      · rw [List.mem_singleton.mp he']
        exact Or.inr ⟨Nat.not_lt.mp hfull, fun c hc => UInt64.le_trans (hfront c hc) (UInt64.not_lt.mp hnewer)⟩

theorem scanning_foldl {batch : Nat} (hb : 0 < batch) (es : List (UInt64 × OpenSpan)) :
    Scanning batch es (es.foldl (refillStep H batch) (0, [])).2 := by
  induction es using List.reverseRecOn with
  | nil => exact ⟨(fun i a b _ ha => by cases ha), fun e he => by cases he⟩
  | append_singleton es e ih =>
      rw [List.foldl_append]
      exact ih.step H hb e

/-- A fresh queue is good for the table it was filled from. -/
theorem refillEvictQueue_ordered {P : Pairer A} (h : P.WF) :
    Ordered P.spans (P.refillEvictQueue H).waiting := by
  have hscan := scanning_foldl H h.batch P.spans.entries
  have hperm := H.sortHeap_perm (P.spans.entries.foldl (refillStep H P.evictBatch) (0, [])).1 newestFirst_strictWeak
    (P.spans.entries.foldl (refillStep H P.evictBatch) (0, [])).2.length
    (P.spans.entries.foldl (refillStep H P.evictBatch) (0, [])).2
  have hsorted := H.sortHeap_sorted (P.spans.entries.foldl (refillStep H P.evictBatch) (0, [])).1
    newestFirst_strictWeak (P.spans.entries.foldl (refillStep H P.evictBatch) (0, [])).2.length (Nat.le_refl _)
    hscan.heap
  refine ⟨hsorted.imp fun hab => not_newestFirst.mp hab, fun k sp hf => ?_⟩
  rcases hscan.covered (k, sp) ((OpenMap.find_eq_some h.spans).mp hf) with hmem | ⟨-, hle⟩
  · exact Or.inl (hperm.mem_iff.mpr hmem)
  · exact Or.inr fun c hc => hle c (hperm.mem_iff.mp hc)

end Refill

/-! ## One eviction -/

/-- The same pairer with another queue. -/
def withQueue (P : Pairer A) (queue : List EvictCandidate) (next : Nat) : Pairer A :=
  { P with evictQueue := queue, evictNext := next }

theorem anomalies_withQueue (P : Pairer A) (queue : List EvictCandidate) (next : Nat) (p : UInt32)
    (inc : PointAnomalies → PointAnomalies) :
    (P.withQueue queue next).anomalies p inc = (P.anomalies p inc).withQueue queue next := by
  unfold anomalies withQueue
  cases P.points.find p.toUInt64 with
  | some a => rfl
  | none => rcases P.points.insert p.toUInt64 {} with ⟨m, _ | a⟩ <;> rfl

/-- The span of `key` dropped and counted. -/
def dropSpan (P : Pairer A) (key : UInt64) : Pairer A :=
  { P.anomalies (spanPoint key) .incAbandoned with spans := (P.spans.erase key).1 }

theorem dropSpan_withQueue (P : Pairer A) (queue : List EvictCandidate) (next : Nat) (key : UInt64) :
    (P.withQueue queue next).dropSpan key = (P.dropSpan key).withQueue queue next := by
  rw [dropSpan, anomalies_withQueue]
  rfl

/-- The oldest span is evicted, and the queue is still good for the spans that are left. -/
structure EvictedOldest (P : Pairer A) (k : UInt64) (sp : OpenSpan) (P' : Pairer A) : Prop where
  oldest : Oldest P.spans k sp
  ordered : Ordered P'.spans P'.waiting
  queued : ∀ c ∈ P'.waiting, c ∈ P.waiting ∨ ∃ sp, P.spans.find c.key = some sp ∧ sp.seenTsc = c.seenTsc
  state : ∃ queue next, P' = (P.dropSpan k).withQueue queue next

/-- The first candidate that still matches is evicted; with none, only the cursor has moved. -/
theorem tryCandidates_oldest (cs : List EvictCandidate) {P : Pairer A} (h : P.spans.WF) (hcs : P.waiting = cs)
    (hord : Ordered P.spans cs) :
    (∃ k sp, (P.tryCandidates cs).2 = true ∧ EvictedOldest P k sp (P.tryCandidates cs).1) ∨
      (∀ c ∈ cs, ∀ sp, P.spans.find c.key = some sp → sp.seenTsc ≠ c.seenTsc) ∧
        P.tryCandidates cs = (P.withQueue P.evictQueue (P.evictNext + cs.length), false) := by
  induction cs generalizing P with
  | nil => exact Or.inr ⟨(fun c hc => by cases hc), rfl⟩
  | cons c rest ih =>
      have hrest : (P.withQueue P.evictQueue (P.evictNext + 1)).waiting = rest := by
        have := congrArg List.tail hcs
        rwa [waiting, List.tail_drop] at this
      have hmatch : (∃ sp, P.spans.find c.key = some sp ∧ sp.seenTsc = c.seenTsc) ∨
          ∀ sp, P.spans.find c.key = some sp → sp.seenTsc ≠ c.seenTsc := by
        by_cases hex : ∃ sp, P.spans.find c.key = some sp ∧ sp.seenTsc = c.seenTsc
        · exact Or.inl hex
        · exact Or.inr fun sp hf hs => hex ⟨sp, hf, hs⟩
      rcases hmatch with ⟨sp, hf, hs⟩ | hstale
      · left
        obtain ⟨-, hrem⟩ := OpenMap.erase_present h hf
        have hrun : P.tryCandidates (c :: rest) =
            ((P.dropSpan c.key).withQueue P.evictQueue (P.evictNext + 1), true) := by
          have hq := anomalies_withQueue P P.evictQueue (P.evictNext + 1) (spanPoint c.key) .incAbandoned
          simp only [tryCandidates, hf, hs, if_true, anomalies_spans]
          rw [← dropSpan_withQueue]
          rfl
        rw [hrun]
        refine ⟨c.key, sp, rfl, hord.head hf hs, ?_, fun c' hc' => ?_, _, _, rfl⟩
        · have hw : ((P.dropSpan c.key).withQueue P.evictQueue (P.evictNext + 1)).waiting = rest := hrest
          rw [hw]
          exact hord.evict hrem.find
        · have hw : ((P.dropSpan c.key).withQueue P.evictQueue (P.evictNext + 1)).waiting = rest := hrest
          rw [hw] at hc'
          rw [hcs]
          exact Or.inl (List.mem_cons_of_mem _ hc')
      · have hskip : P.tryCandidates (c :: rest) =
            (P.withQueue P.evictQueue (P.evictNext + 1)).tryCandidates rest := by
          cases hf : P.spans.find c.key with
          | none => simp only [tryCandidates, hf]; rfl
          | some sp => simp only [tryCandidates, hf, hstale sp hf, if_false]; rfl
        rw [hskip]
        rcases ih (P := P.withQueue P.evictQueue (P.evictNext + 1)) h hrest (hord.skip hstale) with
          ⟨k, sp, htrue, hev⟩ | ⟨hall, heq⟩
        · refine Or.inl ⟨k, sp, htrue, hev.oldest, hev.ordered, fun c' hc' => ?_, ?_⟩
          · rcases hev.queued c' hc' with hmem | hlive
            · rw [hrest] at hmem
              rw [hcs]
              exact Or.inl (List.mem_cons_of_mem _ hmem)
            · exact Or.inr hlive
          · obtain ⟨queue, next, hstate⟩ := hev.state
            rw [dropSpan_withQueue] at hstate
            exact ⟨queue, next, hstate⟩
        · refine Or.inr ⟨fun c' hc' => ?_, ?_⟩
          · rcases List.mem_cons.mp hc' with rfl | hc'
            · exact hstale
            · exact hall c' hc'
          · rw [heq, List.length_cons]
            simp only [withQueue, Prod.mk.injEq, and_true, Pairer.mk.injEq, true_and]
            omega

/-- A full table loses its oldest span. -/
theorem evictOldest_oldest (H : HeapLib) {P : Pairer A} (h : P.WF) (hne : P.spans.entries ≠ [])
    (hord : Ordered P.spans P.waiting) : ∃ k sp, EvictedOldest P k sp (P.evictOldest H) := by
  rcases tryCandidates_oldest P.waiting h.spans rfl hord with ⟨k, sp, htrue, hev⟩ | ⟨-, heq⟩
  · have hrun : P.evictOldest H = (P.tryCandidates P.waiting).1 := by
      unfold waiting at htrue ⊢
      cases ht : P.tryCandidates (P.evictQueue.drop P.evictNext) with
      | mk P' b =>
          rw [ht] at htrue
          cases htrue
          simp only [evictOldest, evictPass, ht]
    rw [hrun]
    exact ⟨k, sp, hev⟩
  · -- the queue has run out, and the second pass starts on a fresh one, whose candidates all match
    set P₀ := P.withQueue P.evictQueue (P.evictNext + P.waiting.length) with hP₀
    have hwf₀ : P₀.WF := ⟨h.spans, h.stages, h.points, h.batch⟩
    obtain ⟨queue, hq, hqne, hlive⟩ := refillEvictQueue_spec H hwf₀ hne
    have hord₁ := refillEvictQueue_ordered H hwf₀
    have hpass : P.evictPass H = (P.withQueue queue 0, false) := by
      unfold waiting at heq
      simp only [evictPass, heq]
      rw [hq]
      cases queue with
      | nil => exact absurd rfl hqne
      | cons _ _ => rfl
    rw [hq] at hord₁
    change Ordered P.spans (P.withQueue queue 0).waiting at hord₁
    have hsecond : P.evictOldest H = ((P.withQueue queue 0).evictPass H).1 := by simp only [evictOldest, hpass]
    have hwait : (P.withQueue queue 0).waiting = queue := rfl
    rcases tryCandidates_oldest (P := P.withQueue queue 0) _ h.spans rfl hord₁ with ⟨k, sp, htrue, hev⟩ | ⟨hall, -⟩
    · have hrun : ((P.withQueue queue 0).evictPass H).1 =
          ((P.withQueue queue 0).tryCandidates (P.withQueue queue 0).waiting).1 := by
        unfold waiting at htrue ⊢
        cases ht : (P.withQueue queue 0).tryCandidates
            ((P.withQueue queue 0).evictQueue.drop (P.withQueue queue 0).evictNext) with
        | mk P' b =>
            rw [ht] at htrue
            cases htrue
            simp only [evictPass, ht]
      rw [hsecond, hrun]
      refine ⟨k, sp, hev.oldest, hev.ordered, fun c hc => ?_, ?_⟩
      · rcases hev.queued c hc with hmem | hl
        · exact Or.inr (hlive c hmem)
        · exact Or.inr hl
      · obtain ⟨queue', next, hstate⟩ := hev.state
        rw [dropSpan_withQueue] at hstate
        exact ⟨queue', next, hstate⟩
    · obtain ⟨c, hc⟩ := List.exists_mem_of_ne_nil queue hqne
      obtain ⟨sp, hf, hs⟩ := hlive c hc
      exact absurd hs (hall c hc sp hf)

end Pairer

end SlickPerfmon
