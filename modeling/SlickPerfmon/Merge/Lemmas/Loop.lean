import SlickPerfmon.Library.Interleave
import SlickPerfmon.Merge.Lemmas.Source
import Mathlib.Algebra.Order.BigOperators.Group.List
import Mathlib.Algebra.Order.Group.Nat

/-!
# The merge loop

A round of the loop takes an earliest stamp, whatever the heap operations do with equal ones; the whole loop hands
over an interleaving of what the sources hold below the watermark, in timestamp order.
-/

namespace SlickPerfmon

open Library

/-! ## Popping -/

section Pop

variable {A : Type} (sources : List MergeSource)

theorem later_strictWeak : StrictWeak (Merger.later sources) where
  asymm a b h := by
    simp only [Merger.later, decide_eq_true_eq, decide_eq_false_iff_not, gt_iff_lt, UInt64.not_lt] at h ⊢
    exact UInt64.le_of_lt h
  negTrans a b c h₁ h₂ := by
    simp only [Merger.later, decide_eq_false_iff_not, gt_iff_lt, UInt64.not_lt] at h₁ h₂ ⊢
    exact UInt64.le_trans h₁ h₂

theorem not_later {sources : List MergeSource} {a b : Nat} :
    Merger.later sources a b = false ↔
      (Merger.sourceHead sources a).timestamp ≤ (Merger.sourceHead sources b).timestamp := by
  simp [Merger.later]

theorem later_of_tie {sources : List MergeSource} {a b : Nat}
    (h : (Merger.sourceHead sources a).timestamp = (Merger.sourceHead sources b).timestamp) (c : Nat) :
    Merger.later sources a c = Merger.later sources b c ∧ Merger.later sources c a = Merger.later sources c b := by
  unfold Merger.later
  rw [h]
  exact ⟨rfl, rfl⟩

/-- The swap of the tie-break. -/
theorem set_append_perm {l : List Nat} {i : Nat} (h : i < l.length) (a : Nat) :
    (l.set i a ++ [l[i]]).Perm (l ++ [a]) := by
  have hset := List.set_perm_cons_eraseIdx h a
  have hget := List.getElem_cons_eraseIdx_perm h
  refine (List.perm_append_singleton _ _).trans (((hset.cons _).trans (List.Perm.swap a _ _)).trans ?_)
  exact (hget.cons a).trans (List.perm_append_singleton a _).symm

theorem preferCleanTie_perm (P : Pairer A) (heap : List Nat) : (Merger.preferCleanTie P sources heap).Perm heap := by
  unfold Merger.preferCleanTie
  split
  · rename_i a first rest hlast hinit
    have hheap : heap = (first :: rest) ++ [a] := by
      rw [← hinit]
      exact (List.dropLast_append_getLast? a hlast).symm
    split
    · exact List.Perm.refl _
    · split
      · rename_i i hi
        obtain ⟨hlt, -⟩ := List.findIdx?_eq_some_iff_getElem.mp hi
        rw [List.getD_eq_getElem _ _ hlt, hheap]
        exact set_append_perm hlt a
      · exact List.Perm.refl _
  · exact List.Perm.refl _

/-- What a round takes: `i` is at the back, its stamp is an earliest one, and it pairs cleanly if an earliest stamp
does. -/
structure Popped (P : Pairer A) (heap : List Nat) (front : List Nat) (i : Nat) : Prop where
  perm : (front ++ [i]).Perm heap
  rest : IsHeap (Merger.later sources) front
  first : ∀ j ∈ heap, (Merger.sourceHead sources i).timestamp ≤ (Merger.sourceHead sources j).timestamp
  clean : P.pairsCleanly (Merger.sourceHead sources i) = true ∨
    ∀ j ∈ heap, (Merger.sourceHead sources j).timestamp = (Merger.sourceHead sources i).timestamp →
      P.pairsCleanly (Merger.sourceHead sources j) = false

/-- The tie-break, on a heap that has just been popped. -/
theorem preferCleanTie_spec {sources : List MergeSource} (P : Pairer A) {front : List Nat} {a : Nat}
    (hheap : IsHeap (Merger.later sources) front)
    (hfirst : ∀ j ∈ front, (Merger.sourceHead sources a).timestamp ≤ (Merger.sourceHead sources j).timestamp) :
    ∃ front' i, Merger.preferCleanTie P sources (front ++ [a]) = front' ++ [i] ∧
      Popped sources P (front ++ [a]) front' i := by
  have hfirst' : ∀ j ∈ front ++ [a],
      (Merger.sourceHead sources a).timestamp ≤ (Merger.sourceHead sources j).timestamp := by
    intro j hj
    rcases List.mem_append.mp hj with hj | hj
    · exact hfirst j hj
    · rw [List.mem_singleton.mp hj]
      exact UInt64.le_refl _
  -- nothing is moved
  have hkeep : (P.pairsCleanly (Merger.sourceHead sources a) = true ∨ ∀ j ∈ front,
      (Merger.sourceHead sources j).timestamp = (Merger.sourceHead sources a).timestamp →
        P.pairsCleanly (Merger.sourceHead sources j) = false) →
      Popped sources P (front ++ [a]) front a := by
    intro hclean
    refine ⟨List.Perm.refl _, hheap, hfirst', ?_⟩
    cases hca : P.pairsCleanly (Merger.sourceHead sources a) with
    | true => exact Or.inl rfl
    | false =>
        refine Or.inr fun j hj htie => ?_
        rcases List.mem_append.mp hj with hj | hj
        · rcases hclean with hclean | hclean
          · rw [hca] at hclean; cases hclean
          · exact hclean j hj htie
        · rw [List.mem_singleton.mp hj]
          exact hca
  unfold Merger.preferCleanTie
  rw [List.getLast?_concat, List.dropLast_concat]
  cases front with
  | nil => exact ⟨[], a, rfl, hkeep (Or.inr fun j hj => by cases hj)⟩
  | cons first rest =>
      simp only
      by_cases hcond : (Merger.sourceHead sources first).timestamp ≠ (Merger.sourceHead sources a).timestamp ∨
          P.pairsCleanly (Merger.sourceHead sources a) = true
      · rw [if_pos hcond]
        refine ⟨first :: rest, a, rfl, hkeep ?_⟩
        rcases hcond with hne | hclean
        · -- the root is not tied, so nothing is
          refine Or.inr fun j hj htie => absurd ?_ hne
          have hroot := not_later.mp (hheap.front (later_strictWeak sources) j hj)
          rw [htie] at hroot
          exact UInt64.le_antisymm hroot (hfirst first List.mem_cons_self)
        · exact Or.inl hclean
      · rw [if_neg hcond]
        simp only [not_or, ne_eq, not_not, Bool.not_eq_true] at hcond
        obtain ⟨hroot, hdirty⟩ := hcond
        split
        · rename_i i hi
          obtain ⟨hlt, hb, -⟩ := List.findIdx?_eq_some_iff_getElem.mp hi
          simp only [decide_eq_true_eq, Bool.decide_and, Bool.and_eq_true, Bool.decide_eq_true] at hb
          obtain ⟨htie, hclean⟩ := hb
          set b := (first :: rest)[i] with hbdef
          have hat : (first :: rest)[i]? = some b := List.getElem?_eq_getElem hlt
          have hget : (first :: rest).getD i a = b := by rw [List.getD_eq_getElem?_getD, hat]; rfl
          rw [hget]
          refine ⟨(first :: rest).set i a, b, rfl, ?_, ?_, fun j hj => ?_, Or.inl hclean⟩
          · exact set_append_perm hlt a
          · exact hheap.set hat fun c => later_of_tie htie.symm c
          · rw [htie]
            exact hfirst' j hj
        · rename_i hnone
          refine ⟨first :: rest, a, rfl, hkeep (Or.inr fun j hj htie => ?_)⟩
          have := List.findIdx?_eq_none_iff.mp hnone j hj
          simpa [htie] using this

/-- A round's pop and tie-break. -/
theorem pop_spec {sources : List MergeSource} (Hm : HeapLib) (n : Nat) (P : Pairer A) {heap : List Nat}
    (hne : heap ≠ []) (hheap : IsHeap (Merger.later sources) heap) :
    ∃ front i, Merger.preferCleanTie P sources (Hm.popHeap (Merger.later sources) n heap) = front ++ [i] ∧
      Popped sources P heap front i := by
  obtain ⟨root, rest, rfl⟩ := List.exists_cons_of_ne_nil hne
  have hperm := Hm.perm (later_strictWeak sources) n rest
  obtain ⟨front, i, heq, hpop⟩ := preferCleanTie_spec P (Hm.heap (later_strictWeak sources) n rest)
    fun j hj => not_later.mp (hheap.front (later_strictWeak sources) j
      (List.mem_cons_of_mem _ (hperm.mem_iff.mp hj)))
  have hall : (Hm.arrange (Merger.later sources) n rest ++ [root]).Perm (root :: rest) :=
    (List.perm_append_singleton root _).trans (hperm.cons root)
  refine ⟨front, i, heq, hpop.perm.trans hall, hpop.rest, fun j hj => hpop.first j (hall.mem_iff.mpr hj), ?_⟩
  rcases hpop.clean with hclean | hdirty
  · exact Or.inl hclean
  · exact Or.inr fun j hj => hdirty j (hall.mem_iff.mpr hj)

end Pop

/-! ## Rounds -/

section Rounds

variable {A : Type} [Accum A] (H : HeapLib) (env : World)

theorem readsOn_nextStamp (watermark : UInt64) (m : Merger A) (src : MergeSource) :
    ReadsOn env m (m.nextStamp H env watermark src).1 :=
  readsOn_nextStampLoop H env watermark _ m src

theorem readsOn_feed (watermark : UInt64) (m : Merger A) (src : MergeSource) :
    ReadsOn env m (m.feed H env watermark src).1 := by
  unfold Merger.feed
  split
  · refine ReadsOn.trans ?_ (readsOn_nextStamp H env watermark (m.onEvent H src.ring _) _)
    exact .quiet rfl rfl
  · exact .quiet rfl rfl

theorem readsOn_mergeLoop (Hm : HeapLib) (watermark : UInt64) (fuel k : Nat) (m : Merger A)
    (sources : List MergeSource) (heap : List Nat) :
    ReadsOn env m (Merger.mergeLoop H env Hm watermark fuel k m sources heap).1 := by
  induction fuel generalizing k m sources heap with
  | zero => exact .quiet rfl rfl
  | succ fuel ih =>
      unfold Merger.mergeLoop
      simp only
      split
      · exact .quiet rfl rfl
      · split
        · exact .quiet rfl rfl
        · exact (readsOn_feed H env watermark m _).trans (ih _ _ _ _)

/-- What a source still hands over in a pass. -/
def laneOf (watermark : UInt64) (src : MergeSource) : List (Option Nat × Sample) :=
  (below watermark (src.rest env)).map fun s => (src.ring, s)

/-- The stamps of a trace are in timestamp order. -/
def InOrder (trace : List (Option Nat × Sample)) : Prop :=
  (trace.filter fun x => x.2.isStamp).Pairwise fun a b => a.2.timestamp ≤ b.2.timestamp

/-- The timestamps of a run's stamps do not go down. -/
def Ascending (l : List Sample) : Prop :=
  (l.filter Sample.isStamp).Pairwise fun a b => a.timestamp ≤ b.timestamp

/-- Between two rounds. -/
structure LoopReady (watermark : UInt64) (m : Merger A) (sources : List MergeSource) (heap : List Nat) : Prop where
  nodup : heap.Nodup
  heaped : IsHeap (Merger.later sources) heap
  ready : ∀ i ∈ heap, ∃ src, sources[i]? = some src ∧ Ready env watermark m.time src
  finished : ∀ (i : Nat) (src : MergeSource), sources[i]? = some src → i ∉ heap →
    below watermark (src.rest env) = [] ∧ Exhausted env watermark m src
  distinct : ∀ (i j : Nat) (a b : MergeSource), sources[i]? = some a → sources[j]? = some b → a.ring = b.ring → i = j
  ascending : ∀ src ∈ sources, Ascending (src.rest env)
  within : ∀ src ∈ sources, src.ring = none → src.pos ≤ src.data.length

/-- What the merge of some sources leaves. -/
structure Merged (watermark : UInt64) (m : Merger A) (sources : List MergeSource)
    (out : Merger A × List MergeSource) (trace : List (Option Nat × Sample)) : Prop where
  fed : Fed H m out.1 trace
  lanes : Interleaves (sources.map (laneOf env watermark)) trace
  order : InOrder trace
  exhausted : ∀ src ∈ sources, Exhausted env watermark out.1 src
  others : ∀ r, (∀ src ∈ sources, src.ring ≠ some r) →
    out.1.ringCursor r = m.ringCursor r ∧ out.1.ringWaitTs r = m.ringWaitTs r
  length : out.2.length = sources.length
  sources : ∀ (i : Nat) (src : MergeSource), sources[i]? = some src → ∃ src', out.2[i]? = some src' ∧
    src'.ring = src.ring ∧ (src.ring = none → src'.data = src.data ∧
      src'.data.drop src'.pos = beyond watermark (src.data.drop src.pos) ∧ src'.pos ≤ src'.data.length)

theorem Ascending.tail {s : Sample} {tl : List Sample} (h : Ascending (s :: tl)) : Ascending tl := by
  unfold Ascending at h ⊢
  rw [List.filter_cons] at h
  split at h
  · exact (List.pairwise_cons.mp h).2
  · exact h

theorem Ascending.le {s x : Sample} {tl : List Sample} (h : Ascending (s :: tl)) (hs : s.isStamp = true)
    (hx : x ∈ tl) (hxs : x.isStamp = true) : s.timestamp ≤ x.timestamp := by
  unfold Ascending at h
  rw [List.filter_cons_of_pos hs] at h
  exact (List.pairwise_cons.mp h).1 x (List.mem_filter.mpr ⟨hx, hxs⟩)

theorem Ascending.fromStamp {l : List Sample} (h : Ascending l) : Ascending (fromStamp l) := by
  rw [← valuesOf_append_fromStamp l] at h
  unfold Ascending at h ⊢
  rw [List.filter_append] at h
  exact (List.pairwise_append.mp h).2.1

/-- A stretch of an ascending log. -/
theorem Ascending.stretch {log : Nat → Sample} {a a' b b' : Nat} (h : Ascending (logFrom log a b)) (ha : a ≤ a')
    (hb : b' ≤ b) : Ascending (logFrom log a' b') := by
  rcases Nat.lt_or_ge a' b' with hlt | hge
  · rw [← logFrom_append ha (hlt.le.trans hb), ← logFrom_append hlt.le hb] at h
    unfold Ascending at h ⊢
    rw [List.filter_append, List.filter_append] at h
    exact (List.pairwise_append.mp (List.pairwise_append.mp h).2.1).1
  · rw [logFrom_eq_nil hge]
    exact List.Pairwise.nil

variable {H env} {watermark : UInt64} {m m₁ : Merger A} {sources : List MergeSource} {i : Nat}
  {src src' : MergeSource} {s : Sample} {tl : List Sample} {more : Bool} {heap : List Nat}

theorem Stepped.lane (h : Stepped H env watermark m src s tl (m₁, src', more)) (hrest : src.rest env = s :: tl)
    (hlt : s.timestamp < watermark) :
    laneOf env watermark src =
      ((src.ring, s) :: (valuesOf tl).map fun s => (src.ring, s)) ++ laneOf env watermark src' ∧
    beyond watermark (src.rest env) = beyond watermark (src'.rest env) := by
  obtain ⟨hbelow, hbeyond⟩ := below_stamp hlt tl
  have hring : src'.ring = src.ring := h.ring
  have hrest' : src'.rest env = fromStamp tl := h.rest
  constructor
  · rw [laneOf, laneOf, hrest, hrest', hbelow, hring, List.map_cons, List.map_append]
    rfl
  · rw [hrest, hrest', hbeyond]

theorem Stepped.exhausted {m₂ : Merger A} (h : Stepped H env watermark m src s tl (m₁, src', more))
    (hrest : src.rest env = s :: tl) (hlt : s.timestamp < watermark) (hex : Exhausted env watermark m₂ src') :
    Exhausted env watermark m₂ src := by
  intro r hr
  have hring : src'.ring = src.ring := h.ring
  have hstop : src'.stop = src.stop := h.stop r hr
  have := hex r (by rw [hring]; exact hr)
  rw [hstop, ← (h.lane hrest hlt).2] at this
  exact this

/-- One stamp of a source, and then the rest. -/
theorem Merged.cons {out : Merger A × List MergeSource} {trace : List (Option Nat × Sample)}
    (hi : sources[i]? = some src) (hrest : src.rest env = s :: tl) (hs : s.isStamp = true)
    (hlt : s.timestamp < watermark) (hstep : Stepped H env watermark m src s tl (m₁, src', more))
    (hmin : ∀ a ∈ sources.set i src', ∀ x ∈ below watermark (a.rest env), x.isStamp = true →
      s.timestamp ≤ x.timestamp)
    (h : Merged H env watermark m₁ (sources.set i src') out trace) :
    Merged H env watermark m sources out
      (((src.ring, s) :: (valuesOf tl).map fun s => (src.ring, s)) ++ trace) := by
  obtain ⟨hlane, hbeyond⟩ := hstep.lane hrest hlt
  have hring : src'.ring = src.ring := hstep.ring
  have hilt := (List.getElem?_eq_some_iff.mp hi).1
  have hself : (sources.set i src')[i]? = some src' := List.getElem?_set_self hilt
  refine
    { fed := hstep.fed.trans h.fed
      lanes := ?_
      order := ?_
      exhausted := fun a ha => ?_
      others := fun r hr => ?_
      length := by rw [h.length, List.length_set]
      sources := fun j a ha => ?_ }
  · refine Interleaves.append (i := i) (l := laneOf env watermark src') ?_ ?_
    · rw [List.getElem?_map, hi]
      exact congrArg some hlane
    · rw [← List.map_set]
      exact h.lanes
  · -- the values in between are no stamps, and everything after comes later
    have hvals : (((valuesOf tl).map fun s => (src.ring, s)).filter fun x => x.2.isStamp) = [] := by
      refine List.filter_eq_nil_iff.mpr fun x hx => ?_
      obtain ⟨y, hy, rfl⟩ := List.mem_map.mp hx
      rw [value_of_mem hy]
      simp
    unfold InOrder
    rw [List.filter_append, List.filter_cons_of_pos (by exact hs), hvals, List.cons_append, List.nil_append,
      List.pairwise_cons]
    refine ⟨fun x hx => ?_, h.order⟩
    obtain ⟨hxt, hxs⟩ := List.mem_filter.mp hx
    obtain ⟨l, hl, hxl⟩ := h.lanes.mem hxt
    obtain ⟨a, ha, rfl⟩ := List.mem_map.mp hl
    obtain ⟨y, hy, rfl⟩ := List.mem_map.mp hxl
    exact hmin a ha y hy hxs
  · obtain ⟨j, hj⟩ := List.mem_iff_getElem?.mp ha
    by_cases hij : i = j
    · subst hij
      cases hi.symm.trans hj
      exact hstep.exhausted hrest hlt (h.exhausted src' (List.mem_of_getElem? hself))
    · exact h.exhausted a (List.mem_of_getElem? (by rw [List.getElem?_set_ne hij]; exact hj))
  · have hsrc := hr src (List.mem_of_getElem? hi)
    have hothers := hstep.others r hsrc
    have := h.others r fun a ha => by
      rcases List.mem_or_eq_of_mem_set ha with ha | rfl
      · exact hr a ha
      · rw [hring]; exact hsrc
    exact ⟨this.1.trans hothers.1, this.2.trans hothers.2⟩
  · by_cases hij : i = j
    · subst hij
      cases hi.symm.trans ha
      obtain ⟨a', ha', hring', hdata⟩ := h.sources i src' hself
      refine ⟨a', ha', hring'.trans hring, fun hnone => ?_⟩
      obtain ⟨hd, hdrop, hpos⟩ := hdata (hring.trans hnone)
      obtain ⟨hdata', -⟩ := hstep.data hnone
      have hnone' : src'.ring = none := hring.trans hnone
      rw [MergeSource.rest, MergeSource.rest, hnone, hnone'] at hbeyond
      exact ⟨hd.trans hdata', hdrop.trans hbeyond.symm, hpos⟩
    · exact h.sources j a (by rw [List.getElem?_set_ne hij]; exact ha)

/-- With nothing left in the heap the sources are as they should be. -/
theorem Merged.nil (hdone : ∀ src ∈ sources, below watermark (src.rest env) = [] ∧ Exhausted env watermark m src)
    (hpos : ∀ src ∈ sources, src.ring = none → src.pos ≤ src.data.length) :
    Merged H env watermark m sources (m, sources) [] where
  fed := .refl m
  lanes := .done fun l hl => by
    obtain ⟨a, ha, rfl⟩ := List.mem_map.mp hl
    rw [laneOf, (hdone a ha).1]
    rfl
  order := List.Pairwise.nil
  exhausted a ha := (hdone a ha).2
  others _ _ := ⟨rfl, rfl⟩
  length := rfl
  sources j a ha := by
    refine ⟨a, ha, rfl, fun hnone => ⟨rfl, ?_, hpos a (List.mem_of_getElem? ha) hnone⟩⟩
    have hsplit := below_append_beyond watermark (a.rest env)
    rw [(hdone a (List.mem_of_getElem? ha)).1, List.nil_append, MergeSource.rest, hnone] at hsplit
    exact hsplit.symm

theorem sourceHead_eq (hi : sources[i]? = some src) (hat : src.data[src.pos]? = some s) :
    Merger.sourceHead sources i = s := by
  unfold Merger.sourceHead
  rw [hi, Option.bind_some, hat]
  rfl

omit [Accum A] in
/-- The first stamp a source has left is the earliest. -/
theorem Ready.le (h : Ready env watermark m.time src) (hasc : Ascending (src.rest env))
    (hi : sources[i]? = some src) {x : Sample} (hx : x ∈ src.rest env) (hxs : x.isStamp = true) :
    (Merger.sourceHead sources i).timestamp ≤ x.timestamp := by
  obtain ⟨s, hhead, hs, -, hat⟩ := h.head
  rw [sourceHead_eq hi hat]
  obtain ⟨tl, hrest⟩ : ∃ tl, src.rest env = s :: tl := by
    cases hr : src.rest env with
    | nil => rw [hr] at hhead; cases hhead
    | cons y tl =>
        rw [hr] at hhead
        cases hhead
        exact ⟨tl, rfl⟩
  rw [hrest] at hx hasc
  rcases List.mem_cons.mp hx with rfl | hx
  · exact UInt64.le_refl _
  · exact hasc.le hs hx hxs

/-! ### The heap after a round -/

section Heap

variable {heap' front : List Nat} (hpop : (front ++ [i]).Perm heap)
  (hheap' : heap'.Perm (if more then front ++ [i] else front))

include hpop hheap'

theorem turn_nodup (hnodup : heap.Nodup) : heap'.Nodup := by
  have hall : (front ++ [i]).Nodup := hpop.nodup_iff.mpr hnodup
  rw [hheap'.nodup_iff]
  cases more with
  | true => exact hall
  | false => exact (List.nodup_append.mp hall).1

theorem mem_of_turn {j : Nat} (hj : j ∈ heap') : j ∈ heap := by
  refine hpop.mem_iff.mp ?_
  have := hheap'.mem_iff.mp hj
  cases more with
  | true => exact this
  | false => exact List.mem_append_left _ this

theorem mem_turn {j : Nat} (hj : j ∈ heap) (hne : j ≠ i) : j ∈ heap' := by
  refine hheap'.mem_iff.mpr ?_
  have := hpop.mem_iff.mpr hj
  cases more with
  | true => exact this
  | false => exact (List.mem_append.mp this).resolve_right fun hji => hne (List.mem_singleton.mp hji)

/-- The source whose turn it was stays in the heap if it has more. -/
theorem mem_turn_self (hnodup : heap.Nodup) : i ∈ heap' ↔ more = true := by
  have hall : (front ++ [i]).Nodup := hpop.nodup_iff.mpr hnodup
  rw [hheap'.mem_iff]
  cases more with
  | true => simp
  | false =>
      refine ⟨fun hi => ?_, fun hno => by cases hno⟩
      exact absurd rfl ((List.nodup_append.mp hall).2.2 i hi i (List.mem_singleton_self i))

end Heap

/-- A source that moves on stays the only one of its ring. -/
theorem distinct_set (hi : sources[i]? = some src) (hring : src'.ring = src.ring)
    (h : ∀ (i j : Nat) (a b : MergeSource), sources[i]? = some a → sources[j]? = some b → a.ring = b.ring → i = j) :
    ∀ (j j' : Nat) (a b : MergeSource), (sources.set i src')[j]? = some a → (sources.set i src')[j']? = some b →
      a.ring = b.ring → j = j' := by
  have hget : ∀ (j : Nat) (a : MergeSource), (sources.set i src')[j]? = some a →
      ∃ a₀, sources[j]? = some a₀ ∧ a₀.ring = a.ring := by
    intro j a ha
    by_cases hij : i = j
    · subst hij
      rw [List.getElem?_set_self (List.getElem?_eq_some_iff.mp hi).1] at ha
      cases ha
      exact ⟨src, hi, hring.symm⟩
    · rw [List.getElem?_set_ne hij] at ha
      exact ⟨a, ha, rfl⟩
  intro j j' a b ha hb hab
  obtain ⟨a₀, ha₀, hra⟩ := hget j a ha
  obtain ⟨b₀, hb₀, hrb⟩ := hget j' b hb
  exact h j j' a₀ b₀ ha₀ hb₀ (hra.trans (hab.trans hrb.symm))

/-- A measure of all sources, when one of them moves on. -/
theorem sum_map_set (f : MergeSource → Nat) (hi : sources[i]? = some src) (src' : MergeSource) :
    ((sources.set i src').map f).sum + f src = (sources.map f).sum + f src' := by
  induction sources generalizing i with
  | nil => cases hi
  | cons a sources ih =>
      cases i with
      | zero =>
          cases hi
          simp only [List.set_cons_zero, List.map_cons, List.sum_cons]
          omega
      | succ i =>
          have := ih (i := i) (by simpa using hi)
          simp only [List.set_cons_succ, List.map_cons, List.sum_cons]
          omega

/-- With nothing left by a measure that the sources in the heap have some of, the heap is empty. -/
theorem heap_nil_of_sum (f : MergeSource → Nat) (h : ∀ i ∈ heap, ∃ src, sources[i]? = some src ∧ 0 < f src)
    (hnone : (sources.map f).sum = 0) : heap = [] := by
  refine List.eq_nil_iff_forall_not_mem.mpr fun i hi => ?_
  obtain ⟨src, hsrc, hpos⟩ := h i hi
  have hmem := List.single_le_sum (fun _ _ => Nat.zero_le _) _ (List.mem_map_of_mem (f := f) (List.mem_of_getElem? hsrc))
  omega

/-- A round keeps the loop ready. -/
theorem LoopReady.round (h : LoopReady env watermark m sources heap) {P : Pairer A} {front : List Nat}
    (hpop : Popped sources P heap front i) (hi : sources[i]? = some src) (hrest : src.rest env = s :: tl)
    (hstep : Stepped H env watermark m src s tl (m₁, src', more)) (Hm : HeapLib) (k : Nat) :
    LoopReady env watermark m₁ (sources.set i src')
      (if more then Hm.pushHeap (Merger.later (sources.set i src')) k (front ++ [i]) else front) := by
  have hilt := (List.getElem?_eq_some_iff.mp hi).1
  have hring : src'.ring = src.ring := hstep.ring
  have hheap' : (if more then Hm.pushHeap (Merger.later (sources.set i src')) k (front ++ [i]) else front).Perm
      (if more then front ++ [i] else front) := by
    cases more with
    | true => exact Hm.perm (later_strictWeak _) k (front ++ [i])
    | false => exact List.Perm.refl _
  refine ⟨turn_nodup hpop.perm hheap' h.nodup, ?_, fun j hj => ?_, fun j a ha hj => ?_,
    distinct_set hi hring h.distinct, fun a ha => ?_, fun a ha hnone => ?_⟩
  · cases more with
    | true => exact Hm.heap (later_strictWeak _) k (front ++ [i])
    | false =>
        have hsame : ∀ j ∈ front, Merger.sourceHead (sources.set i src') j = Merger.sourceHead sources j := by
          intro j hj
          have hij : i ≠ j := by
            rintro rfl
            exact absurd ((mem_turn_self hpop.perm hheap' h.nodup).mp hj) Bool.false_ne_true
          unfold Merger.sourceHead
          rw [List.getElem?_set_ne hij]
        refine hpop.rest.congr fun a ha b hb => ?_
        rw [Merger.later, Merger.later, hsame a ha, hsame b hb]
  · by_cases hij : i = j
    · subst hij
      exact ⟨src', List.getElem?_set_self hilt, hstep.more ((mem_turn_self hpop.perm hheap' h.nodup).mp hj)⟩
    · obtain ⟨a, ha, hra⟩ := h.ready j (mem_of_turn hpop.perm hheap' hj)
      refine ⟨a, by rw [List.getElem?_set_ne hij]; exact ha, fun r hr => ?_, hra.head⟩
      obtain ⟨stop, hst, hchunk, hreach⟩ := hra.chunk r hr
      exact ⟨stop, hst, hchunk, fun t ht => hreach t (hstep.fed.time.trans ht)⟩
  · by_cases hij : i = j
    · subst hij
      rw [List.getElem?_set_self hilt] at ha
      cases ha
      have hfalse : more = false := by
        rw [mem_turn_self hpop.perm hheap' h.nodup, Bool.not_eq_true] at hj
        exact hj
      obtain ⟨hbelow, hex⟩ := hstep.done hfalse
      have hrest' : src'.rest env = fromStamp tl := hstep.rest
      exact ⟨by rw [hrest']; exact hbelow, hex⟩
    · rw [List.getElem?_set_ne hij] at ha
      have hjh : j ∉ heap := fun hjh => hj (mem_turn hpop.perm hheap' hjh (Ne.symm hij))
      obtain ⟨hbelow, hex⟩ := h.finished j a ha hjh
      refine ⟨hbelow, fun r hr => ?_⟩
      have hothers := hstep.others r fun heq => hij (h.distinct i j src a hi ha (heq.trans hr.symm))
      have := hex r hr
      exact ⟨by rw [hothers.1]; exact this.1, by rw [hothers.2]; exact this.2⟩
  · rcases List.mem_or_eq_of_mem_set ha with ha | rfl
    · exact h.ascending a ha
    · have hasc := h.ascending src (List.mem_of_getElem? hi)
      rw [hrest] at hasc
      have hrest' : a.rest env = fromStamp tl := hstep.rest
      rw [hrest']
      exact hasc.tail.fromStamp
  · rcases List.mem_or_eq_of_mem_set ha with ha | rfl
    · exact h.within a ha hnone
    · obtain ⟨hdata, hpos⟩ := hstep.data (hring.symm.trans hnone)
      simp only at hdata hpos
      rw [hdata]
      exact hpos

omit [Accum A] in
/-- No stamp of any source is earlier than the one a round takes. -/
theorem LoopReady.earliest (h : LoopReady env watermark m sources heap) {P : Pairer A} {front : List Nat}
    (hpop : Popped sources P heap front i) (hi : sources[i]? = some src) (hrest : src.rest env = s :: tl)
    (hs : s.isStamp = true) (hat : src.data[src.pos]? = some s) (hrest' : src'.rest env = fromStamp tl) :
    ∀ a ∈ sources.set i src', ∀ x ∈ below watermark (a.rest env), x.isStamp = true → s.timestamp ≤ x.timestamp := by
  intro a ha x hx hxs
  have hsub : x ∈ a.rest env := (List.takeWhile_sublist _).subset hx
  obtain ⟨j, hj⟩ := List.mem_iff_getElem?.mp ha
  by_cases hij : i = j
  · subst hij
    rw [List.getElem?_set_self (List.getElem?_eq_some_iff.mp hi).1] at hj
    cases hj
    have hasc := h.ascending src (List.mem_of_getElem? hi)
    rw [hrest] at hasc
    rw [hrest'] at hsub
    exact hasc.le hs ((List.dropWhile_sublist _).subset hsub) hxs
  · rw [List.getElem?_set_ne hij] at hj
    by_cases hjh : j ∈ heap
    · obtain ⟨b, hb, hready⟩ := h.ready j hjh
      cases hj.symm.trans hb
      have hle := hready.le (h.ascending a (List.mem_of_getElem? hj)) hj hsub hxs
      have hfirst := hpop.first j hjh
      rw [sourceHead_eq hi hat] at hfirst
      exact UInt64.le_trans hfirst hle
    · rw [(h.finished j a hj hjh).1] at hx
      cases hx

omit [Accum A] in
theorem Ready.lane_pos (h : Ready env watermark m.time src) : 0 < (laneOf env watermark src).length := by
  obtain ⟨s, hhead, -, hlt, -⟩ := h.head
  unfold laneOf below
  cases hr : src.rest env with
  | nil => rw [hr] at hhead; cases hhead
  | cons y tl =>
      rw [hr] at hhead
      cases hhead
      rw [List.takeWhile_cons_of_pos (by simp [hlt])]
      exact Nat.succ_pos _

/-- A round: the loop takes source `i`, at the stamp `s`, and feeding it leaves `out`. -/
structure LoopRound (H : HeapLib) (env : World) (watermark : UInt64) (m : Merger A) (sources : List MergeSource)
    (heap front : List Nat) (i : Nat) (src : MergeSource) (s : Sample) (tl : List Sample)
    (out : Merger A × MergeSource × Bool) : Prop where
  popped : Popped sources m.pairer heap front i
  source : sources[i]? = some src
  rest : src.rest env = s :: tl
  stamp : s.isStamp = true
  below : s.timestamp < watermark
  head : src.data[src.pos]? = some s
  feed : m.feed H env watermark src = out
  stepped : Stepped H env watermark m src s tl out
  lost : out.1.ringLost = m.ringLost

/-- The loop with something in the heap is a round and the loop from there. -/
theorem mergeLoop_round (Hm : HeapLib) (fuel k : Nat) (h : LoopReady env watermark m sources heap) (hne : heap ≠ [])
    (hlost : (Merger.mergeLoop H env Hm watermark (fuel + 1) k m sources heap).1.ringLost = m.ringLost) :
    ∃ front i src s tl m₁ src' more, LoopRound H env watermark m sources heap front i src s tl (m₁, src', more) ∧
      Merger.mergeLoop H env Hm watermark (fuel + 1) k m sources heap =
        Merger.mergeLoop H env Hm watermark fuel (k + 1) m₁ (sources.set i src')
          (if more then Hm.pushHeap (Merger.later (sources.set i src')) (2 * k + 2) (front ++ [i]) else front) := by
  obtain ⟨front, i, heq, hpop⟩ := pop_spec Hm (2 * k + 1) m.pairer hne h.heaped
  obtain ⟨src, hi, hready⟩ := h.ready i (hpop.perm.mem_iff.mp (by simp))
  have hround : Merger.mergeLoop H env Hm watermark (fuel + 1) k m sources heap =
      Merger.mergeLoop H env Hm watermark fuel (k + 1) (m.feed H env watermark src).1
        (sources.set i (m.feed H env watermark src).2.1)
        (if (m.feed H env watermark src).2.2 then
          Hm.pushHeap (Merger.later (sources.set i (m.feed H env watermark src).2.1)) (2 * k + 2) (front ++ [i])
        else front) := by
    rw [Merger.mergeLoop]
    simp only [heq, List.getLast?_concat, List.dropLast_concat, hi]
  have hfeed : (m.feed H env watermark src).1.ringLost = m.ringLost := by
    refine Nat.le_antisymm ?_ (readsOn_feed H env watermark m src).lost
    rw [← hlost, hround]
    exact (readsOn_mergeLoop H env Hm watermark fuel (k + 1) _ _ _).lost
  obtain ⟨s, tl, hrest, hs, hlt, hat, hstep⟩ := feed_spec H env hready hfeed
  exact ⟨front, i, src, s, tl, (m.feed H env watermark src).1, (m.feed H env watermark src).2.1,
    (m.feed H env watermark src).2.2, ⟨hpop, hi, hrest, hs, hlt, hat, rfl, hstep, hfeed⟩, hround⟩

/-- A round takes a stamp and the values behind it off what is left. -/
theorem LoopRound.length {front : List Nat}
    (h : LoopRound H env watermark m sources heap front i src s tl (m₁, src', more)) :
    (sources.map fun a => (laneOf env watermark a).length).sum =
      (valuesOf tl).length + 1 + ((sources.set i src').map fun a => (laneOf env watermark a).length).sum := by
  have hsum := sum_map_set (fun a => (laneOf env watermark a).length) h.source src'
  have hlane := congrArg List.length (h.stepped.lane h.rest h.below).1
  rw [List.length_append, List.length_cons, List.length_map] at hlane
  omega

omit [Accum A] in
theorem LoopReady.stopped (h : LoopReady env watermark m sources []) :
    ∀ src ∈ sources, below watermark (src.rest env) = [] ∧ Exhausted env watermark m src := fun a ha => by
  obtain ⟨i, hi⟩ := List.mem_iff_getElem?.mp ha
  exact h.finished i a hi List.not_mem_nil

omit [Accum A] in
/-- Without fuel for a stamp the heap is empty. -/
theorem LoopReady.heap_nil (h : LoopReady env watermark m sources heap)
    (hfuel : (sources.map fun a => (laneOf env watermark a).length).sum = 0) : heap = [] := by
  refine heap_nil_of_sum (fun a => (laneOf env watermark a).length) (fun i hi => ?_) hfuel
  obtain ⟨src, hsrc, hready⟩ := h.ready i hi
  exact ⟨src, hsrc, hready.lane_pos⟩

theorem mergeLoop_nil (Hm : HeapLib) (fuel k : Nat) (m : Merger A) (sources : List MergeSource) :
    Merger.mergeLoop H env Hm watermark fuel k m sources [] = (m, sources) := by
  cases fuel with
  | zero => rfl
  | succ fuel => rfl

theorem mergeLoop_spec (Hm : HeapLib) (fuel k : Nat) (h : LoopReady env watermark m sources heap)
    (hfuel : (sources.map fun a => (laneOf env watermark a).length).sum ≤ fuel)
    (hlost : (Merger.mergeLoop H env Hm watermark fuel k m sources heap).1.ringLost = m.ringLost) :
    ∃ trace, Merged H env watermark m sources
      (Merger.mergeLoop H env Hm watermark fuel k m sources heap) trace := by
  induction fuel generalizing k m sources heap with
  | zero =>
      obtain rfl := h.heap_nil (Nat.le_zero.mp hfuel)
      exact ⟨[], Merged.nil h.stopped h.within⟩
  | succ fuel ih =>
      by_cases hne : heap = []
      · subst hne
        rw [mergeLoop_nil]
        exact ⟨[], Merged.nil h.stopped h.within⟩
      · obtain ⟨front, i, src, s, tl, m₁, src', more, hround, heq⟩ := mergeLoop_round Hm fuel k h hne hlost
        rw [heq] at hlost ⊢
        have hlen := hround.length
        have hstep := hround.stepped
        obtain ⟨trace, hmerged⟩ := ih (k + 1)
          (h.round hround.popped hround.source hround.rest hstep Hm (2 * k + 2)) (by omega)
          (hlost.trans hround.lost.symm)
        exact ⟨_, Merged.cons hround.source hround.rest hround.stamp hround.below hstep
          (h.earliest hround.popped hround.source hround.rest hround.stamp hround.head hstep.rest) hmerged⟩

/-! ## The merge of a pass -/

/-- With one source the loop over the heap does the same. -/
theorem drainOnly_eq_mergeLoop (Hm : HeapLib) (fuel k : Nat) (m : Merger A) (src : MergeSource) :
    ((Merger.drainOnly H env watermark fuel m src).1, [(Merger.drainOnly H env watermark fuel m src).2]) =
      Merger.mergeLoop H env Hm watermark fuel k m [src] [0] := by
  induction fuel generalizing k m src with
  | zero => rfl
  | succ fuel ih =>
      have hpop : Hm.popHeap (Merger.later [src]) (2 * k + 1) [0] = [0] :=
        List.perm_singleton.mp (Hm.popHeap_perm (2 * k + 1) (later_strictWeak [src]) [0])
      rw [Merger.mergeLoop, hpop]
      unfold Merger.drainOnly
      simp only [Merger.preferCleanTie, List.getLast?_singleton, List.dropLast_singleton, List.getElem?_cons_zero,
        List.set_cons_zero]
      generalize m.feed H env watermark src = out
      obtain ⟨m₁, src', more⟩ := out
      cases more with
      | true =>
          have hpush : Hm.pushHeap (Merger.later [src']) (2 * k + 2) [0] = [0] :=
            List.perm_singleton.mp (Hm.perm (later_strictWeak [src']) (2 * k + 2) [0])
          simp only [if_true, hpush]
          exact ih (k + 1) m₁ src'
      | false =>
          simp only [Bool.false_eq_true, if_false, mergeLoop_nil]

/-- However many sources a pass has, it merges them as the loop does. -/
theorem mergeSources_eq_mergeLoop (Hm : HeapLib) (m : Merger A) (sources : List MergeSource) :
    m.mergeSources H env Hm watermark sources =
      Merger.mergeLoop H env Hm watermark (sources.map Merger.remaining).sum 0 m sources
        (Hm.makeHeap (Merger.later sources) 0 (List.range sources.length)) := by
  unfold Merger.mergeSources
  match sources with
  | [] => rfl
  | [src] =>
      have hmake : Hm.makeHeap (Merger.later [src]) 0 (List.range [src].length) = [0] :=
        List.perm_singleton.mp (Hm.perm (later_strictWeak [src]) 0 [0])
      rw [hmake]
      exact drainOnly_eq_mergeLoop Hm _ 0 m src
  | a :: b :: rest => rfl

omit [Accum A] in
/-- The fuel of the loops covers what a source has left. -/
theorem lane_le_remaining (src : MergeSource) : (laneOf env watermark src).length ≤ Merger.remaining src := by
  have hle : (below watermark (src.rest env)).length ≤ (src.rest env).length :=
    (List.takeWhile_sublist _).length_le
  rw [laneOf, List.length_map]
  refine hle.trans ?_
  unfold MergeSource.rest Merger.remaining
  cases src.ring with
  | none =>
      rw [List.length_drop]
      omega
  | some r =>
      rw [length_logFrom]
      omega

omit [Accum A] in
/-- The loop starts with a heap of all sources. -/
theorem loopReady_start (hready : ∀ src ∈ sources, Ready env watermark m.time src)
    (hdistinct : ∀ (i j : Nat) (a b : MergeSource), sources[i]? = some a → sources[j]? = some b →
      a.ring = b.ring → i = j)
    (hasc : ∀ src ∈ sources, Ascending (src.rest env)) {heap : List Nat}
    (hperm : heap.Perm (List.range sources.length)) (hheap : IsHeap (Merger.later sources) heap) :
    LoopReady env watermark m sources heap := by
  have hmem : ∀ i, i ∈ heap ↔ i < sources.length := fun i => hperm.mem_iff.trans List.mem_range
  exact
    { nodup := hperm.nodup_iff.mpr List.nodup_range
      heaped := hheap
      ready := fun i hi => ⟨_, List.getElem?_eq_getElem ((hmem i).mp hi), hready _ (List.getElem_mem _)⟩
      finished := fun i src hi hnot => absurd ((hmem i).mpr (List.getElem?_eq_some_iff.mp hi).1) hnot
      distinct := hdistinct
      ascending := hasc
      within := fun src hsrc _ => by
        obtain ⟨s, -, -, -, hat⟩ := (hready src hsrc).head
        exact Nat.le_of_lt (List.getElem?_eq_some_iff.mp hat).1 }

omit [Accum A] in
theorem lanes_le_remaining (sources : List MergeSource) :
    (sources.map fun a => (laneOf env watermark a).length).sum ≤ (sources.map Merger.remaining).sum :=
  List.sum_le_sum fun src _ => lane_le_remaining src

variable (H m sources) in
/-- All sources of a pass, one or many. -/
theorem mergeSources_spec (Hm : HeapLib) (hready : ∀ src ∈ sources, Ready env watermark m.time src)
    (hdistinct : ∀ (i j : Nat) (a b : MergeSource), sources[i]? = some a → sources[j]? = some b →
      a.ring = b.ring → i = j)
    (hasc : ∀ src ∈ sources, Ascending (src.rest env))
    (hlost : (m.mergeSources H env Hm watermark sources).1.ringLost = m.ringLost) :
    ∃ trace, Merged H env watermark m sources (m.mergeSources H env Hm watermark sources) trace := by
  rw [mergeSources_eq_mergeLoop] at hlost ⊢
  exact mergeLoop_spec Hm _ 0 (loopReady_start hready hdistinct hasc (Hm.perm (later_strictWeak sources) 0 _)
    (Hm.heap (later_strictWeak sources) 0 _)) (lanes_le_remaining sources) hlost

end Rounds

end SlickPerfmon
