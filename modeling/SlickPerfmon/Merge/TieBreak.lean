import SlickPerfmon.Library.TieBreak
import SlickPerfmon.Merge.Lemmas.Loop

/-!
# The heap loop as a merge with a tie-break

What the loop hands over, whatever the heap operations do with equal keys, is a merge with a tie-break, a stamp at a
time with the values behind it; and each such merge is what it hands over under some library.
-/

namespace SlickPerfmon

open Library

/-! ## Stamps with their values -/

/-- The stamps of a run, each with the values behind it: what a round hands over. -/
def parcels : List Sample → List (Sample × List Sample)
  | [] => []
  | s :: rest => if s.isStamp then (s, valuesOf rest) :: parcels rest else parcels rest

theorem parcels_fromStamp (l : List Sample) : parcels (fromStamp l) = parcels l := by
  induction l with
  | nil => rfl
  | cons s l ih =>
      unfold fromStamp at ih ⊢
      cases hs : s.isStamp with
      | true => rw [List.dropWhile_cons_of_neg (by simp [hs])]
      | false =>
          rw [List.dropWhile_cons_of_pos (by simp [hs]), parcels, if_neg (by rw [hs]; exact Bool.false_ne_true)]
          exact ih

theorem parcels_stamp {s : Sample} (hs : s.isStamp = true) (tl : List Sample) :
    parcels (s :: tl) = (s, valuesOf tl) :: parcels (fromStamp tl) := by
  rw [parcels, if_pos hs, parcels_fromStamp]

/-- The stamps a source still hands over in a pass. -/
def stampLane (env : World) (watermark : UInt64) (src : MergeSource) : List (Sample × List Sample) :=
  (parcels (src.rest env)).takeWhile fun x => x.1.timestamp < watermark

theorem stampLane_cons {env : World} {watermark : UInt64} {src src' : MergeSource} {s : Sample} {tl : List Sample}
    (hrest : src.rest env = s :: tl) (hs : s.isStamp = true) (hlt : s.timestamp < watermark)
    (hrest' : src'.rest env = fromStamp tl) :
    stampLane env watermark src = (s, valuesOf tl) :: stampLane env watermark src' := by
  unfold stampLane
  rw [hrest, hrest', parcels_stamp hs, List.takeWhile_cons_of_pos (by simpa using hlt)]

theorem stampLane_nil {env : World} {watermark : UInt64} {src : MergeSource}
    (h : below watermark (src.rest env) = []) : stampLane env watermark src = [] := by
  unfold stampLane
  unfold below at h
  cases hrest : src.rest env with
  | nil => rfl
  | cons s tl =>
      rw [hrest, List.takeWhile_cons] at h
      split at h
      · cases h
      · rename_i hbeyond
        rw [Bool.or_eq_true, Bool.not_eq_true', not_or, Bool.not_eq_false] at hbeyond
        rw [parcels_stamp hbeyond.1]
        exact List.takeWhile_cons_of_neg hbeyond.2

/-! ## The tie-break -/

section TieBreak

variable {A : Type} [Accum A] (H : HeapLib) (env : World) (watermark : UInt64)

/-- What the merge knows of a stamp: its timestamp, and whether it would pair cleanly now. -/
def stampTies : TieBreak (Pairer A) (Sample × List Sample) Nat where
  feed P x := (x.1 :: x.2).foldl (fun P s => P.onEvent H s) P
  clean P x := P.pairsCleanly x.1
  key x := x.1.timestamp.toNat

/-- `new` are the calls of `on_event` that hand over `fed`. -/
inductive Feeds : List Handed → List ((Sample × List Sample) × Bool) → Prop
  | nil : Feeds [] []
  | cons {h : Handed} {values new : List Handed} {fed : List ((Sample × List Sample) × Bool)} :
      h.sample.isStamp = true → (∀ v ∈ values, v.sample.isStamp = false) → Feeds new fed →
      Feeds (h :: (values ++ new)) (((h.sample, values.map Handed.sample), h.clean) :: fed)

/-- From `m` to `m'` all the stamps of the sources are handed over in the order of `fed`. -/
def MergedBy (sources : List MergeSource) (m m' : Merger A) (fed : List ((Sample × List Sample) × Bool)) : Prop :=
  ∃ new P lanes, m'.handed = m.handed ++ new ∧ Feeds new fed ∧
    (stampTies H).Steps m.pairer (sources.map (stampLane env watermark)) fed P lanes ∧ ∀ l ∈ lanes, l = []

variable {H env watermark} {m m₁ : Merger A} {sources : List MergeSource} {heap front : List Nat} {i : Nat}
  {src src' : MergeSource} {s : Sample} {tl : List Sample} {more : Bool}

omit [Accum A] in
/-- A source in the heap stands at the next stamp of its lane. -/
theorem LoopReady.lane (h : LoopReady env watermark m sources heap) {j : Nat} (hj : j ∈ heap) :
    ∃ y l, (sources.map (stampLane env watermark))[j]? = some (y :: l) ∧ Merger.sourceHead sources j = y.1 := by
  obtain ⟨src, hsrc, hready⟩ := h.ready j hj
  obtain ⟨s, hhead, hs, hlt, hat⟩ := hready.head
  obtain ⟨tl, hrest⟩ := List.head?_eq_some_iff.mp hhead
  refine ⟨(s, valuesOf tl), (parcels (fromStamp tl)).takeWhile fun x => x.1.timestamp < watermark, ?_,
    sourceHead_eq hsrc hat⟩
  rw [List.getElem?_map, hsrc, Option.map_some, stampLane, hrest, parcels_stamp hs,
    List.takeWhile_cons_of_pos (by simpa using hlt)]

omit [Accum A] in
/-- A source that has a stamp left is in the heap. -/
theorem LoopReady.of_lane (h : LoopReady env watermark m sources heap) {j : Nat} {y : Sample × List Sample}
    {l : List (Sample × List Sample)} (hj : (sources.map (stampLane env watermark))[j]? = some (y :: l)) :
    j ∈ heap ∧ Merger.sourceHead sources j = y.1 := by
  by_cases hmem : j ∈ heap
  · obtain ⟨y', l', hj', hhead⟩ := h.lane hmem
    cases hj.symm.trans hj'
    exact ⟨hmem, hhead⟩
  · rw [List.getElem?_map] at hj
    obtain ⟨src, hsrc, hlane⟩ := Option.map_eq_some_iff.mp hj
    rw [stampLane_nil (h.finished j src hsrc hmem).1] at hlane
    cases hlane

/-! ## What the loop hands over -/

theorem LoopRound.lanes (h : LoopRound H env watermark m sources heap front i src s tl (m₁, src', more)) :
    (sources.map (stampLane env watermark))[i]? = some ((s, valuesOf tl) :: stampLane env watermark src') ∧
      (sources.map (stampLane env watermark)).set i (stampLane env watermark src') =
        (sources.set i src').map (stampLane env watermark) := by
  refine ⟨?_, List.map_set.symm⟩
  rw [List.getElem?_map, h.source, Option.map_some, stampLane_cons h.rest h.stamp h.below h.stepped.rest]

/-- A round takes a stamp that the tie-break may take. -/
theorem LoopRound.next (hloop : LoopReady env watermark m sources heap)
    (h : LoopRound H env watermark m sources heap front i src s tl (m₁, src', more)) :
    (stampTies H).Next m.pairer (sources.map (stampLane env watermark)) i (s, valuesOf tl)
      (stampLane env watermark src') := by
  have hhead := sourceHead_eq h.source h.head
  refine ⟨h.lanes.1, fun j y l hj => ?_, ?_⟩
  · obtain ⟨hmem, hy⟩ := hloop.of_lane hj
    have hle := h.popped.first j hmem
    rw [hhead, hy] at hle
    exact UInt64.le_iff_toNat_le.mp hle
  · rcases h.popped.clean with hclean | hdirty
    · rw [hhead] at hclean
      exact Or.inl hclean
    · refine Or.inr fun j y l hj htie => ?_
      obtain ⟨hmem, hy⟩ := hloop.of_lane hj
      have hj := hdirty j hmem (by rw [hhead, hy]; exact UInt64.toNat_inj.mp htie)
      rw [hy] at hj
      exact hj

/-- The values behind the stamp are fed with it. -/
theorem LoopRound.pairer (h : LoopRound H env watermark m sources heap front i src s tl (m₁, src', more)) :
    m₁.pairer = (stampTies H).feed m.pairer (s, valuesOf tl) := by
  rw [h.stepped.fed.pairer, List.foldl_cons, List.foldl_map]
  rfl

/-- What a round hands over. -/
theorem LoopRound.feeds (h : LoopRound H env watermark m sources heap front i src s tl (m₁, src', more))
    {new : List Handed} {fed : List ((Sample × List Sample) × Bool)} (hfeeds : Feeds new fed) :
    ∃ round, m₁.handed = m.handed ++ round ∧
      Feeds (round ++ new) (((s, valuesOf tl), m.pairer.pairsCleanly s) :: fed) := by
  refine ⟨_, h.stepped.fed.handed, ?_⟩
  have hsamples := fun P : Pairer A => congrArg (List.map Prod.snd)
    (handedBy_map H P ((valuesOf tl).map fun s => (src.ring, s)))
  simp only [List.map_map, Function.comp_def, List.map_id'] at hsamples
  have hvalues : ∀ v ∈ handedBy H (m.pairer.onEvent H s) ((valuesOf tl).map fun s => (src.ring, s)),
      v.sample.isStamp = false := by
    intro v hv
    have hmem := List.mem_map_of_mem (f := Handed.sample) hv
    exact value_of_mem (hsamples _ ▸ hmem)
  have hcons := Feeds.cons (h := ⟨src.ring, s, m.pairer.pairsCleanly s⟩) h.stamp hvalues hfeeds
  rw [show List.map Handed.sample _ = valuesOf tl from hsamples _] at hcons
  exact hcons

/-- Nothing in the heap, nothing to hand over. -/
theorem MergedBy.nil (h : LoopReady env watermark m sources []) : MergedBy H env watermark sources m m [] := by
  refine ⟨[], m.pairer, _, (List.append_nil _).symm, .nil, .nil, fun l hl => ?_⟩
  obtain ⟨src, hsrc, rfl⟩ := List.mem_map.mp hl
  exact stampLane_nil (h.stopped src hsrc).1

/-- A round, and then the rest. -/
theorem MergedBy.cons {m' : Merger A} {fed : List ((Sample × List Sample) × Bool)}
    (hloop : LoopReady env watermark m sources heap)
    (hround : LoopRound H env watermark m sources heap front i src s tl (m₁, src', more))
    (h : MergedBy H env watermark (sources.set i src') m₁ m' fed) :
    MergedBy H env watermark sources m m' (((s, valuesOf tl), m.pairer.pairsCleanly s) :: fed) := by
  obtain ⟨new, P, lanes, hhanded, hfeeds, hsteps, hdone⟩ := h
  obtain ⟨round, hround', hfeeds'⟩ := hround.feeds hfeeds
  refine ⟨round ++ new, P, lanes, ?_, hfeeds', .cons (hround.next hloop) ?_, hdone⟩
  · rw [hhanded, hround', List.append_assoc]
  · rw [hround.lanes.2, ← hround.pairer]
    exact hsteps

omit [Accum A] in
/-- Two heaps between the same two rounds hold the same sources. -/
theorem LoopReady.perm {heap' : List Nat} (h : LoopReady env watermark m sources heap)
    (h' : LoopReady env watermark m sources heap') : heap.Perm heap' := by
  refine (List.perm_ext_iff_of_nodup h.nodup h'.nodup).mpr fun j => ⟨fun hj => ?_, fun hj => ?_⟩
  · obtain ⟨y, l, hlane, -⟩ := h.lane hj
    exact (h'.of_lane hlane).1
  · obtain ⟨y, l, hlane, -⟩ := h'.lane hj
    exact (h.of_lane hlane).1

omit [Accum A] in
theorem LoopReady.reheap {heap' : List Nat} (h : LoopReady env watermark m sources heap) (hperm : heap'.Perm heap)
    (hheap : IsHeap (Merger.later sources) heap') : LoopReady env watermark m sources heap' :=
  { h with
    nodup := hperm.nodup_iff.mpr h.nodup
    heaped := hheap
    ready := fun j hj => h.ready j (hperm.mem_iff.mp hj)
    finished := fun j a ha hj => h.finished j a ha fun hmem => hj (hperm.mem_iff.mpr hmem) }

/-- Source `i` is one of the earliest, and no tied one is to be preferred to it. -/
structure Preferred (P : Pairer A) (sources : List MergeSource) (i : Nat) (others : List Nat) : Prop where
  first : ∀ j ∈ others, (Merger.sourceHead sources i).timestamp ≤ (Merger.sourceHead sources j).timestamp
  clean : P.pairsCleanly (Merger.sourceHead sources i) = true ∨
    ∀ j ∈ others, (Merger.sourceHead sources j).timestamp = (Merger.sourceHead sources i).timestamp →
      P.pairsCleanly (Merger.sourceHead sources j) = false

omit [Accum A] in
/-- The tie-break keeps such a source. -/
theorem Preferred.keeps {P : Pairer A} (h : Preferred P sources i front) :
    Merger.preferCleanTie P sources (front ++ [i]) = front ++ [i] := by
  unfold Merger.preferCleanTie
  rw [List.getLast?_concat, List.dropLast_concat]
  cases front with
  | nil => rfl
  | cons first rest =>
      simp only
      split
      · rfl
      · rename_i hcond
        rw [not_or] at hcond
        have hdirty := h.clean.resolve_left hcond.2
        have hnone : (first :: rest).findIdx? (fun b => decide
            ((Merger.sourceHead sources b).timestamp = (Merger.sourceHead sources i).timestamp ∧
              P.pairsCleanly (Merger.sourceHead sources b) = true)) = none := by
          refine List.findIdx?_eq_none_iff.mpr fun j hj => decide_eq_false fun hb => ?_
          rw [hdirty j hj hb.1] at hb
          exact Bool.false_ne_true hb.2
        rw [hnone]

omit [Accum A] in
theorem Preferred.popped {P : Pairer A} {rest : List Nat} (h : Preferred P sources i rest) (Hm : HeapLib) (n : Nat) :
    Popped sources P (i :: rest) (Hm.arrange (Merger.later sources) n rest) i where
  perm := (List.perm_append_singleton i _).trans ((Hm.perm (later_strictWeak sources) n rest).cons i)
  rest := Hm.heap (later_strictWeak sources) n rest
  first j hj := by
    rcases List.mem_cons.mp hj with rfl | hj
    · exact UInt64.le_refl _
    · exact h.first j hj
  clean := by
    cases hi : P.pairsCleanly (Merger.sourceHead sources i) with
    | true => exact Or.inl rfl
    | false =>
        refine Or.inr fun j hj htie => ?_
        rcases List.mem_cons.mp hj with rfl | hj
        · exact hi
        · refine h.clean.resolve_left ?_ j hj htie
          rw [hi]
          exact Bool.false_ne_true

omit [Accum A] in
/-- What the tie-break may take next can be at the root of the heap. -/
theorem LoopReady.root {x : Sample × List Sample} {l : List (Sample × List Sample)} [Accum A]
    (h : LoopReady env watermark m sources heap)
    (hnext : (stampTies H).Next m.pairer (sources.map (stampLane env watermark)) i x l) :
    ∃ rest, LoopReady env watermark m sources (i :: rest) ∧ Preferred m.pairer sources i rest := by
  obtain ⟨hmem, hhead⟩ := h.of_lane hnext.lane
  have hrest := sortingLib.perm (later_strictWeak sources) 0 (heap.erase i)
  have hperm : (i :: sortingLib.arrange (Merger.later sources) 0 (heap.erase i)).Perm heap :=
    (hrest.cons i).trans (List.perm_cons_erase hmem).symm
  have hpref : Preferred m.pairer sources i (sortingLib.arrange (Merger.later sources) 0 (heap.erase i)) := by
    refine ⟨fun j hj => ?_, ?_⟩
    · obtain ⟨y, l', hlane, hy⟩ := h.lane (hperm.mem_iff.mp (List.mem_cons_of_mem _ hj))
      rw [hhead, hy]
      exact UInt64.le_iff_toNat_le.mpr (hnext.least j y l' hlane)
    · rw [hhead]
      refine hnext.tie.imp_right fun hdirty j hj htie => ?_
      obtain ⟨y, l', hlane, hy⟩ := h.lane (hperm.mem_iff.mp (List.mem_cons_of_mem _ hj))
      rw [hy] at htie ⊢
      exact hdirty j y l' hlane (congrArg UInt64.toNat htie)
  refine ⟨_, h.reheap hperm (IsHeap.of_sorted (List.pairwise_cons.mpr ⟨fun j hj => ?_, ?_⟩)), hpref⟩
  · exact not_later.mpr (hpref.first j hj)
  · exact insertionSort_pairwise (later_strictWeak sources) _

end TieBreak

end SlickPerfmon
