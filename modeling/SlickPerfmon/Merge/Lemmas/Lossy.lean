import SlickPerfmon.Merge.Lemmas.Source
import SlickPerfmon.Merge.Unbounded

/-!
# A source whose ring may be lapped

What a read overwrites is counted where it is found, so a ring's samples split into those handed over and those lost,
index by index, however chunks are read; and what a source still has to hand over shrinks with every one.
-/

namespace SlickPerfmon

open Library

/-! ## Indices -/

theorem range'_join {a b c : Nat} (hab : a ≤ b) (hbc : b ≤ c) :
    List.range' a (b - a) ++ List.range' b (c - b) = List.range' a (c - a) := by
  obtain ⟨n, rfl⟩ := Nat.exists_eq_add_of_le hab
  obtain ⟨k, rfl⟩ := Nat.exists_eq_add_of_le hbc
  rw [Nat.add_sub_cancel_left, Nat.add_sub_cancel_left, List.range'_append_1, Nat.add_assoc, Nat.add_sub_cancel_left]

/-- The indices from `a` up to `b`, each either handed over or lost, and those handed over in ascending order. -/
structure Split (a b : Nat) (given lost : List Nat) : Prop where
  le : a ≤ b
  ascending : given.Pairwise (· < ·)
  perm : (given ++ lost).Perm (List.range' a (b - a))

namespace Split

variable {a b c : Nat} {given lost given' lost' : List Nat}

theorem refl (a : Nat) : Split a a [] [] := ⟨Nat.le_refl a, List.Pairwise.nil, by simp⟩

theorem handed (a n : Nat) : Split a (a + n) (List.range' a n) [] where
  le := Nat.le_add_right a n
  ascending := List.pairwise_lt_range'
  perm := by rw [List.append_nil, Nat.add_sub_cancel_left]

theorem overwritten {a b : Nat} (h : a ≤ b) : Split a b [] (List.range' a (b - a)) where
  le := h
  ascending := List.Pairwise.nil
  perm := by rw [List.nil_append]

theorem mem (h : Split a b given lost) {i : Nat} (hi : i ∈ given ∨ i ∈ lost) : a ≤ i ∧ i < b := by
  have hmem := h.perm.mem_iff.mp (List.mem_append.mpr hi)
  rw [List.mem_range'_1] at hmem
  have := h.le
  omega

theorem trans (h : Split a b given lost) (h' : Split b c given' lost') :
    Split a c (given ++ given') (lost ++ lost') where
  le := h.le.trans h'.le
  ascending := by
    refine List.pairwise_append.mpr ⟨h.ascending, h'.ascending, fun i hi j hj => ?_⟩
    exact (h.mem (Or.inl hi)).2.trans_le (h'.mem (Or.inl hj)).1
  perm := by
    rw [← range'_join h.le h'.le]
    refine List.Perm.trans ?_ (h.perm.append h'.perm)
    rw [List.append_assoc, List.append_assoc]
    refine List.Perm.append_left _ ?_
    rw [← List.append_assoc, ← List.append_assoc]
    exact List.perm_append_comm.append_right _

theorem count (h : Split a b given lost) : given.length + lost.length = b - a := by
  have := h.perm.length_eq
  rwa [List.length_append, List.length_range'] at this

/-- No index is handed over twice, lost twice, or both. -/
theorem nodup (h : Split a b given lost) : (given ++ lost).Nodup := h.perm.nodup_iff.mpr List.nodup_range'

end Split

/-! ## Steps -/

namespace RingStep

def ring : RingStep → Nat
  | .read r _ _ => r
  | .hand r _ => r

/-- The index it starts at. -/
def first : RingStep → Nat
  | .read _ cursor _ => cursor
  | .hand _ index => index

/-- The index behind the last one it disposes of. -/
def next : RingStep → Nat
  | .read _ cursor lost => cursor + lost
  | .hand _ index => index + 1

def lost : RingStep → Nat
  | .read _ _ lost => lost
  | .hand _ _ => 0

/-- The indices it hands over. -/
def handed : RingStep → List Nat
  | .read _ _ _ => []
  | .hand _ index => [index]

/-- The indices it finds overwritten. -/
def overwritten : RingStep → List Nat
  | .read _ cursor lost => List.range' cursor lost
  | .hand _ _ => []

theorem split (s : RingStep) : Split s.first s.next s.handed s.overwritten := by
  cases s with
  | read r cursor lost =>
      have h := Split.overwritten (Nat.le_add_right cursor lost)
      rwa [Nat.add_sub_cancel_left] at h
  | hand r index => exact Split.handed index 1

end RingStep

/-- The indices of ring `r` that these steps hand over. -/
def handedIndices (r : Nat) (steps : List RingStep) : List Nat :=
  (steps.filter fun s => s.ring = r).flatMap RingStep.handed

/-- The indices of ring `r` that these steps count as lost. -/
def lostIndices (r : Nat) (steps : List RingStep) : List Nat :=
  (steps.filter fun s => s.ring = r).flatMap RingStep.overwritten

/-- What these steps add to `ring_lost_`. -/
def addedLost (steps : List RingStep) : Nat := (steps.map RingStep.lost).sum

theorem handedIndices_append (r : Nat) (steps steps' : List RingStep) :
    handedIndices r (steps ++ steps') = handedIndices r steps ++ handedIndices r steps' := by
  simp [handedIndices]

theorem addedLost_append (steps steps' : List RingStep) :
    addedLost (steps ++ steps') = addedLost steps + addedLost steps' := by
  simp [addedLost]

theorem handedIndices_eq_nil {r : Nat} {steps : List RingStep} (h : ∀ s ∈ steps, s.ring ≠ r) :
    handedIndices r steps = [] := by
  have hnone : (steps.filter fun s => s.ring = r) = [] :=
    List.filter_eq_nil_iff.mpr fun s hs => by simpa using h s hs
  rw [handedIndices, hnone, List.flatMap_nil]

theorem ring_of_handSteps {ring : Option Nat} {index n : Nat} {s : RingStep} (h : s ∈ handSteps ring index n) :
    ring = some s.ring := by
  cases ring with
  | none => cases h
  | some r =>
      obtain ⟨i, -, rfl⟩ := List.mem_map.mp h
      rfl

theorem handedIndices_handSteps (r index n : Nat) :
    handedIndices r (handSteps (some r) index n) = List.range' index n := by
  have hall : (handSteps (some r) index n).filter (fun s => s.ring = r) = handSteps (some r) index n :=
    List.filter_eq_self.mpr fun s hs => by simpa using (Option.some.inj (ring_of_handSteps hs)).symm
  rw [handedIndices, hall, handSteps, List.flatMap_map]
  exact List.flatMap_singleton' _

theorem addedLost_handSteps (ring : Option Nat) (index n : Nat) : addedLost (handSteps ring index n) = 0 := by
  cases ring with
  | none => rfl
  | some r =>
      refine List.sum_eq_zero_iff_forall_eq_nat.mpr fun x hx => ?_
      obtain ⟨s, hs, rfl⟩ := List.mem_map.mp hx
      obtain ⟨i, -, rfl⟩ := List.mem_map.mp hs
      rfl

/-- The steps of ring `r` follow one another from index `a` up to index `b`: none goes back, and none leaves an index
out. -/
def Tiles (r : Nat) : List RingStep → Nat → Nat → Prop
  | [], a, b => a = b
  | s :: steps, a, b => if s.ring = r then s.first = a ∧ Tiles r steps s.next b else Tiles r steps a b

namespace Tiles

variable {r a b c : Nat} {steps steps' : List RingStep}

theorem still (a : Nat) (h : ∀ s ∈ steps, s.ring ≠ r) : Tiles r steps a a := by
  induction steps with
  | nil => rfl
  | cons s steps ih =>
      rw [Tiles, if_neg (h s List.mem_cons_self)]
      exact ih fun s hs => h s (List.mem_cons_of_mem _ hs)

theorem trans (h : Tiles r steps a b) (h' : Tiles r steps' b c) : Tiles r (steps ++ steps') a c := by
  induction steps generalizing a with
  | nil =>
      obtain rfl : a = b := h
      exact h'
  | cons s steps ih =>
      rw [List.cons_append]
      unfold Tiles at h ⊢
      split
      · rename_i hr
        rw [if_pos hr] at h
        exact ⟨h.1, ih h.2⟩
      · rename_i hr
        rw [if_neg hr] at h
        exact ih h

theorem read {lost : Nat} (hle : a ≤ b) (hlost : lost = b - a) : Tiles r [.read r a lost] a b := by
  refine (if_pos rfl).mpr ⟨rfl, ?_⟩
  rw [Tiles, RingStep.next]
  omega

theorem hands (r a n : Nat) : Tiles r (handSteps (some r) a n) a (a + n) := by
  induction n generalizing a with
  | zero => rfl
  | succ n ih =>
      have hcons : handSteps (some r) a (n + 1) = .hand r a :: handSteps (some r) (a + 1) n := by
        simp [handSteps, List.range'_succ]
      rw [hcons]
      refine (if_pos rfl).mpr ⟨rfl, ?_⟩
      have hrest := ih (a + 1)
      rwa [Nat.add_assoc, Nat.add_comm 1 n] at hrest

/-- So every index in between is either handed over or lost, and once. -/
theorem split (h : Tiles r steps a b) : Split a b (handedIndices r steps) (lostIndices r steps) := by
  induction steps generalizing a with
  | nil =>
      obtain rfl : a = b := h
      exact Split.refl a
  | cons s steps ih =>
      unfold Tiles at h
      unfold handedIndices lostIndices
      split at h
      · rename_i hr
        rw [List.filter_cons_of_pos (by simpa using hr), List.flatMap_cons, List.flatMap_cons, ← h.1]
        exact s.split.trans (ih h.2)
      · rename_i hr
        rw [List.filter_cons_of_neg (by simpa using hr)]
        exact ih h

end Tiles

/-! ## One read -/

/-- A read moves its cursor over what was overwritten, and the batch follows it. -/
theorem ringRead_lossy (log : Nat → Sample) (mask h h' cursor maxN : Nat) :
    let res := ringRead log mask h h' cursor maxN
    cursor ≤ res.cursor ∧ res.lost = res.cursor - cursor ∧
      res.batch = logFrom log res.cursor (res.cursor + res.batch.length) ∧ res.batch.length ≤ maxN ∧
      (cursor ≤ h → res.cursor + res.batch.length ≤ h) := by
  intro res
  by_cases hcond : h ≤ cursor ∨ maxN = 0
  · have hres : res = ⟨cursor, [], 0⟩ := if_pos hcond
    rw [hres]
    exact ⟨Nat.le_refl _, (Nat.sub_self _).symm, (logFrom_eq_nil (Nat.le_refl _)).symm, Nat.zero_le _, fun hle => hle⟩
  · set start := readStart h mask cursor with hstart
    set stop := readStop h start maxN with hstop
    set first := readFirst (firstIntact h' mask) start stop with hfirst
    have hres : res = ⟨first, logFrom log first stop, first - cursor⟩ := if_neg hcond
    have hs : cursor ≤ start ∧ start ≤ h := by
      rw [hstart]
      unfold readStart firstIntact
      split <;> split <;> omega
    have he : start ≤ stop ∧ stop ≤ h ∧ stop ≤ start + maxN := by
      rw [hstop]
      unfold readStop
      split <;> omega
    have hf : start ≤ first ∧ first ≤ stop := by
      rw [hfirst]
      unfold readFirst
      split
      · split <;> omega
      · omega
    rw [hres]
    simp only [length_logFrom]
    exact ⟨by omega, trivial, by congr 1; omega, by omega, fun _ => by omega⟩

/-! ## A refill -/

section Refill

variable {A : Type} (env : World)

/-- Between `m` and `m'` the ring `r` was read by these steps, as far as `stop`: the cursor is past what was lost, and
the batch is at it. -/
structure Refilled (r stop : Nat) (m m' : Merger A) (steps : List RingStep) (batch : List Sample) : Prop where
  tiles : Tiles r steps (m.ringCursor r) (m'.ringCursor r)
  hands : handedIndices r steps = []
  only : ∀ c ∈ steps, c.ring = r
  added : m'.ringLost = m.ringLost + addedLost steps
  others : ∀ r', r' ≠ r → m'.ringCursor r' = m.ringCursor r'
  waits : m'.ringWaitTs = m.ringWaitTs
  handed : m'.handed = m.handed
  time : m.time ≤ m'.time
  stretch : batch = logFrom (env.log r) (m'.ringCursor r) (m'.ringCursor r + batch.length)
  room : batch.length ≤ stop - m.ringCursor r
  heads : (∀ t t', t ≤ t' → env.head t r ≤ env.head t' r) → m.ringCursor r ≤ env.head m.time r →
    m'.ringCursor r + batch.length ≤ env.head m'.time r

namespace Refilled

variable {env} {r stop : Nat} {m m' m'' : Merger A} {steps steps' : List RingStep} {batch : List Sample}

theorem trans (h : Refilled env r stop m m' steps []) (h' : Refilled env r stop m' m'' steps' batch) :
    Refilled env r stop m m'' (steps ++ steps') batch where
  tiles := h.tiles.trans h'.tiles
  hands := by rw [handedIndices_append, h.hands, h'.hands, List.append_nil]
  only c hc := (List.mem_append.mp hc).elim (h.only c) (h'.only c)
  added := by rw [h'.added, h.added, addedLost_append, Nat.add_assoc]
  others r' hr := (h'.others r' hr).trans (h.others r' hr)
  waits := h'.waits.trans h.waits
  handed := h'.handed.trans h.handed
  time := h.time.trans h'.time
  stretch := h'.stretch
  room := by
    have := h'.room
    have := h.tiles.split.le
    omega
  heads hmono hle := h'.heads hmono (by simpa using h.heads hmono hle)

end Refilled

/-- One read of the ring. -/
theorem refilled_read {r stop room : Nat} {m : Merger A} (hroom : room ≤ stop - m.ringCursor r) {res : ReadResult}
    (hres : res =
      ringRead (env.log r) env.mask (env.head m.time r) (env.head (m.time + 1) r) (m.ringCursor r) room) :
    Refilled env r stop m
      { m with
        time := m.time + 2
        ringCursor := Function.update m.ringCursor r res.cursor
        ringLost := m.ringLost + res.lost
        reads := m.reads ++ [⟨r, m.time, m.ringCursor r⟩] } [.read r (m.ringCursor r) res.lost] res.batch := by
  obtain ⟨hle, hlost, hbatch, hlen, hhead⟩ := ringRead_lossy (env.log r) env.mask (env.head m.time r)
    (env.head (m.time + 1) r) (m.ringCursor r) room
  rw [← hres] at hle hlost hbatch hlen hhead
  have hself : Function.update m.ringCursor r res.cursor r = res.cursor := Function.update_self _ _ _
  exact
    { tiles := by simp only [hself]; exact .read hle hlost
      hands := by simp [handedIndices, RingStep.ring, RingStep.handed]
      only := fun s hs => by rw [List.mem_singleton.mp hs]; rfl
      added := by simp [addedLost, RingStep.lost]
      others := fun r' hr => Function.update_of_ne hr _ _
      waits := rfl
      handed := rfl
      time := Nat.le_add_right _ _
      stretch := by simp only [hself]; exact hbatch
      room := hlen.trans hroom
      heads := fun hmono hcur => by
        simp only [hself]
        exact (hhead hcur).trans (hmono _ _ (Nat.le_add_right _ _)) }

theorem refill_lossy (r stop k : Nat) (m : Merger A) (hk : stop - m.ringCursor r + 1 ≤ k) :
    ∃ steps, Refilled env r stop m (Merger.refill env r stop k m).1 steps (Merger.refill env r stop k m).2 ∧
      ∀ limit log, stop - m.ringCursor r + 1 ≤ limit → Merger.refillWithin env r stop limit m log =
        some ((Merger.refill env r stop k m).1, log ++ steps, (Merger.refill env r stop k m).2) := by
  induction k generalizing m with
  | zero => omega
  | succ k ih =>
      unfold Merger.refill
      simp only
      set room := if stop > m.ringCursor r then min (stop - m.ringCursor r) kMergeChunk else 0 with hroom
      have hroomle : room ≤ stop - m.ringCursor r := by
        rw [hroom]
        split <;> omega
      set res := ringRead (env.log r) env.mask (env.head m.time r) (env.head (m.time + 1) r) (m.ringCursor r) room
        with hres
      have hread := refilled_read env hroomle hres
      by_cases hcond : res.batch ≠ [] ∨ res.cursor = m.ringCursor r
      · rw [if_pos hcond]
        refine ⟨_, hread, fun limit log hlimit => ?_⟩
        obtain ⟨limit, rfl⟩ : ∃ n, limit = n + 1 := ⟨limit - 1, by omega⟩
        unfold Merger.refillWithin
        simp only [← hroom, ← hres]
        rw [if_pos hcond]
      · rw [if_neg hcond]
        rw [not_or, ne_eq, not_not] at hcond
        obtain ⟨hempty, hmoved⟩ := hcond
        -- all of it was overwritten: the cursor has moved, and it was short of the stop
        have hshort : m.ringCursor r < stop := by
          by_contra hge
          have hzero : room = 0 := by rw [hroom, if_neg (by omega)]
          exact hmoved (by rw [hres, hzero]; unfold ringRead; rw [if_pos (Or.inr rfl)])
        rw [hempty] at hread
        have hstep := hread.tiles.split.le
        have hself : Function.update m.ringCursor r res.cursor r = res.cursor := Function.update_self _ _ _
        simp only [hself] at hstep
        have hk' : stop - Function.update m.ringCursor r res.cursor r + 1 ≤ k := by
          rw [hself]
          omega
        obtain ⟨steps, hrest, hwithin⟩ := ih
          { m with
            time := m.time + 2
            ringCursor := Function.update m.ringCursor r res.cursor
            ringLost := m.ringLost + res.lost
            reads := m.reads ++ [⟨r, m.time, m.ringCursor r⟩] } hk'
        refine ⟨_, hread.trans hrest, fun limit log hlimit => ?_⟩
        obtain ⟨limit, rfl⟩ : ∃ n, limit = n + 1 := ⟨limit - 1, by omega⟩
        unfold Merger.refillWithin
        simp only [← hroom, ← hres]
        rw [if_neg (by rw [not_or, ne_eq, not_not]; exact ⟨hempty, hmoved⟩),
          hwithin limit _ (by simp only [hself]; omega), List.append_assoc]

end Refill

/-! ## What is handed over -/

section Consumed

variable {A : Type}

/-- The samples of ring `r` that the pairer has been handed. -/
def ringSamples (r : Nat) (m : Merger A) : List Sample :=
  (m.handed.filter fun h => h.ring = some r).map Handed.sample

/-- From `m` to `m'` ring `r` is consumed from `a` up to `b`, handed over or lost; at most `x` samples were left to
hand over before, and `y` are after. -/
structure Consumed (env : World) (r : Nat) (m m' : Merger A) (steps : List RingStep) (a b x y : Nat) : Prop where
  tiles : Tiles r steps a b
  samples : ringSamples r m' = ringSamples r m ++ (handedIndices r steps).map (env.log r)
  left : (handedIndices r steps).length + y ≤ x

/-- Ring `r` has no part in what happens from `m` to `m'`. -/
structure Untouched (r : Nat) (m m' : Merger A) (steps : List RingStep) : Prop where
  samples : ringSamples r m' = ringSamples r m
  steps : ∀ c ∈ steps, c.ring ≠ r

variable {env : World} {r : Nat} {m m' m'' : Merger A} {steps steps' : List RingStep} {a b c x y z : Nat}

theorem Consumed.trans (h : Consumed env r m m' steps a b x y) (h' : Consumed env r m' m'' steps' b c y z) :
    Consumed env r m m'' (steps ++ steps') a c x z where
  tiles := h.tiles.trans h'.tiles
  samples := by rw [h'.samples, h.samples, handedIndices_append, List.map_append, List.append_assoc]
  left := by
    have := h.left
    have := h'.left
    rw [handedIndices_append, List.length_append]
    omega

theorem Consumed.weaken (h : Consumed env r m m' steps a b x y) {x' y' : Nat} (hx : x ≤ x') (hy : y' ≤ y) :
    Consumed env r m m' steps a b x' y' where
  tiles := h.tiles
  samples := h.samples
  left := by
    have := h.left
    omega

theorem Untouched.still (h : ringSamples r m' = ringSamples r m) : Untouched r m m' [] :=
  ⟨h, fun _ hs => absurd hs List.not_mem_nil⟩

theorem Untouched.trans (h : Untouched r m m' steps) (h' : Untouched r m' m'' steps') :
    Untouched r m m'' (steps ++ steps') where
  samples := h'.samples.trans h.samples
  steps c hc := (List.mem_append.mp hc).elim (h.steps c) (h'.steps c)

theorem Untouched.consumed (h : Untouched r m m' steps) (a x : Nat) : Consumed env r m m' steps a a x x where
  tiles := .still a h.steps
  samples := by rw [h.samples, handedIndices_eq_nil h.steps, List.map_nil, List.append_nil]
  left := by rw [handedIndices_eq_nil h.steps, List.length_nil, Nat.zero_add]

/-- A refill hands nothing over. -/
theorem Refilled.consumed {stop : Nat} {batch : List Sample} (h : Refilled env r stop m m' steps batch) (x : Nat) :
    Consumed env r m m' steps (m.ringCursor r) (m'.ringCursor r) x x where
  tiles := h.tiles
  samples := by rw [ringSamples, h.handed, h.hands, List.map_nil, List.append_nil]; rfl
  left := by rw [h.hands, List.length_nil, Nat.zero_add]

theorem Refilled.untouched {stop r' : Nat} {batch : List Sample} (h : Refilled env r stop m m' steps batch)
    (hr : r' ≠ r) : Untouched r' m m' steps where
  samples := by rw [ringSamples, h.handed]; rfl
  steps c hc := by
    rw [h.only c hc]
    exact hr.symm

variable [Accum A] {H : HeapLib} {trace : List (Option Nat × Sample)}

theorem Fed.ringSamples (h : Fed H m m' trace) (r : Nat) :
    SlickPerfmon.ringSamples r m' =
      SlickPerfmon.ringSamples r m ++ (trace.filter fun x => x.1 = some r).map Prod.snd := by
  unfold SlickPerfmon.ringSamples
  rw [h.handed, List.filter_append, List.map_append]
  congr 1
  conv_rhs => rw [← handedBy_map H m.pairer trace]
  rw [List.filter_map, List.map_map]
  rfl

/-- Samples of one source, handed over from `m` to `m'`. -/
theorem Fed.ringSamples_source {ring : Option Nat} {l : List Sample} (h : Fed H m m' (l.map fun s => (ring, s))) (r : Nat) :
    SlickPerfmon.ringSamples r m' = SlickPerfmon.ringSamples r m ++ if ring = some r then l else [] := by
  rw [h.ringSamples r]
  congr 1
  split
  · rename_i hring
    subst hring
    rw [List.filter_eq_self.mpr fun x hx => ?_, List.map_map]
    · exact List.map_id l
    · obtain ⟨s, -, rfl⟩ := List.mem_map.mp hx
      simp
  · rename_i hring
    rw [List.filter_eq_nil_iff.mpr fun x hx => ?_]
    · rfl
    · obtain ⟨s, -, rfl⟩ := List.mem_map.mp hx
      simpa using hring

end Consumed

/-! ## `next_stamp` -/

section Next

variable {A : Type} [Accum A] (H : HeapLib) (env : World)

/-- What a source has left, up to `stop`: the rest of its chunk and what is behind it. -/
def MergeSource.left (stop : Nat) (src : MergeSource) : Nat :=
  (src.data.length - src.pos) + (stop - (src.base + src.data.length))

/-- A chunk of ring `r`. -/
structure Chunk (r : Nat) (src : MergeSource) : Prop where
  ring : src.ring = some r
  pos : src.pos ≤ src.data.length
  data : src.data = logFrom (env.log r) src.base (src.base + src.data.length)

/-- Where a ring stands after `next_stamp`: at the stamp it moved on to, or at its cursor. -/
def place (r : Nat) (out : Merger A × MergeSource × Bool) : Nat :=
  if out.2.2 then out.2.1.base + out.2.1.pos else out.1.ringCursor r

/-- What `next_stamp` leaves of a source of ring `r` in a pass that reads the ring as far as `stop`. -/
structure Advanced (r stop : Nat) (m : Merger A) (src : MergeSource) (out : Merger A × MergeSource × Bool)
    (steps : List RingStep) : Prop where
  consumed : Consumed env r m out.1 steps (src.base + src.pos) (place r out) (src.left stop)
    (if out.2.2 then out.2.1.left stop else 0)
  others : ∀ r', r' ≠ r → Untouched r' m out.1 steps
  kept : OthersKept (some r) m out.1
  added : out.1.ringLost = m.ringLost + addedLost steps
  time : m.time ≤ out.1.time
  chunk : Chunk env r out.2.1
  stopped : out.2.1.stop = some stop
  shrinks : out.2.1.left stop ≤ src.left stop
  more : out.2.2 = true → ∃ s, out.2.1.data[out.2.1.pos]? = some s
  heads : (∀ t t', t ≤ t' → env.head t r ≤ env.head t' r) → src.base + src.data.length ≤ env.head m.time r →
    out.2.1.base + out.2.1.data.length ≤ env.head out.1.time r ∧ place r out ≤ env.head out.1.time r

omit [Accum A] in
theorem Chunk.drop {env : World} {r : Nat} {src : MergeSource} (h : Chunk env r src) :
    src.data.drop src.pos = logFrom (env.log r) (src.base + src.pos) (src.base + src.data.length) := by
  conv_lhs => rw [h.data]
  exact drop_logFrom src.pos

variable {H env} {r stop : Nat} {m : Merger A} {src : MergeSource}

/-- Some of a chunk, handed over from where its source is. -/
theorem Chunk.hands (h : Chunk env r src) (stop : Nat) {m' : Merger A} {l : List Sample}
    (hl : l <+: src.data.drop src.pos) (hfed : Fed H m m' (l.map fun s => (some r, s))) :
    src.pos + l.length ≤ src.data.length ∧
      Consumed env r m m' (handSteps (some r) (src.base + src.pos) l.length) (src.base + src.pos)
        (src.base + (src.pos + l.length)) (src.left stop) (MergeSource.left stop { src with pos := src.pos + l.length }) ∧
      ∀ r', r' ≠ r → Untouched r' m m' (handSteps (some r) (src.base + src.pos) l.length) := by
  have hpos := h.pos
  have hle := hl.length_le
  rw [List.length_drop] at hle
  have hlog : l = (List.range' (src.base + src.pos) l.length).map (env.log r) := by
    refine List.ext_getElem? fun k => ?_
    rw [List.getElem?_map]
    by_cases hk : k < l.length
    · rw [List.getElem?_eq_getElem hk, hl.getElem hk, ← List.getElem?_eq_getElem, h.drop, getElem?_logFrom,
        if_pos (by omega), List.getElem?_range' hk]
      simp
    · rw [List.getElem?_eq_none (Nat.le_of_not_lt hk), List.getElem?_eq_none (by simpa using hk)]
      rfl
  refine ⟨by omega, ⟨?_, ?_, ?_⟩, fun r' hr => ⟨?_, fun s hs heq => ?_⟩⟩
  · rw [← Nat.add_assoc]
    exact Tiles.hands r (src.base + src.pos) l.length
  · rw [hfed.ringSamples_source r, if_pos rfl, handedIndices_handSteps, ← hlog]
  · rw [handedIndices_handSteps, List.length_range', MergeSource.left, MergeSource.left]
    simp only
    omega
  · rw [hfed.ringSamples_source r', if_neg (by simpa using hr.symm), List.append_nil]
  · have hown := ring_of_handSteps hs
    rw [heq] at hown
    exact hr (Option.some.inj hown).symm

/-- The values in front of the next stamp of a chunk went to the pairer, and the source is at `pos`. -/
structure ValuesPast (env : World) (r stop : Nat) (m : Merger A) (src : MergeSource) (m' : Merger A) (pos : Nat)
    (steps : List RingStep) : Prop where
  consumed : Consumed env r m m' steps (src.base + src.pos) (src.base + pos) (src.left stop)
    (MergeSource.left stop { src with pos := pos })
  others : ∀ r', r' ≠ r → Untouched r' m m' steps
  kept : OthersKept (some r) m m'
  added : m'.ringLost = m.ringLost + addedLost steps
  time : m'.time = m.time
  chunk : Chunk env r { src with pos := pos }

theorem passValues_lossy (h : Chunk env r src) (stop : Nat) {m' : Merger A} {pos : Nat}
    (hout : Merger.passValues H (some r) (src.data.drop src.pos) m src.pos = (m', pos)) :
    ValuesPast env r stop m src m' pos (handSteps (some r) (src.base + src.pos) (pos - src.pos)) := by
  obtain ⟨hpos, hfed, hc, hw, ht, hl⟩ := passValues_spec H (some r) (src.data.drop src.pos) m src.pos
  rw [hout] at hpos hfed hc hw ht hl
  obtain ⟨hle, hown, hothers⟩ := h.hands stop ⟨_, valuesOf_append_fromStamp _⟩ hfed
  have hlen : (valuesOf (src.data.drop src.pos)).length = pos - src.pos := by
    simp only at hpos
    omega
  simp only at hpos hc hw ht hl
  rw [← hpos] at hle hown
  rw [hlen] at hown hothers
  exact
    { consumed := hown
      others := hothers
      kept := fun _ _ => ⟨by rw [hc], by rw [hw]⟩
      added := by rw [addedLost_handSteps]; exact hl
      time := ht
      chunk := ⟨h.ring, hle, h.data⟩ }

theorem chunk_stop {st : Option Nat} {data : List Sample} {head : Nat}
    (h : st = some stop ∨ st = none ∧ data = [] ∧ head = stop) : st.getD head = stop := by
  rcases h with rfl | ⟨rfl, -, hhead⟩
  · rfl
  · exact hhead

/-- What reading a source of ring `r` again leaves. -/
structure Reread (env : World) (r stop : Nat) (m : Merger A) (src : MergeSource)
    (out : Merger A × MergeSource × List Sample) (steps : List RingStep) : Prop where
  consumed : ∀ x, Consumed env r m out.1 steps (src.base + src.pos) (out.1.ringCursor r) x x
  others : ∀ r', r' ≠ r → Untouched r' m out.1 steps
  kept : OthersKept (some r) m out.1
  added : out.1.ringLost = m.ringLost + addedLost steps
  time : m.time ≤ out.1.time
  source : out.2.1 = { src with stop := some stop }
  behind : src.base + src.pos ≤ out.1.ringCursor r
  stretch : out.2.2 = logFrom (env.log r) (out.1.ringCursor r) (out.1.ringCursor r + out.2.2.length)
  room : out.2.2.length ≤ stop - (src.base + src.pos)
  heads : (∀ t t', t ≤ t' → env.head t r ≤ env.head t' r) → src.base + src.pos ≤ env.head m.time r →
    out.1.ringCursor r + out.2.2.length ≤ env.head out.1.time r

omit [Accum A] in
theorem nextChunk_lossy (m : Merger A) (src : MergeSource) (h : src.stop.getD (env.head m.time r) = stop) :
    ∃ steps, Reread env r stop m src (m.nextChunk env r src) steps ∧
      ∀ limit log, stop + 1 ≤ limit → Merger.nextChunkWithin env limit r m log src =
        some ((m.nextChunk env r src).1, log ++ steps, (m.nextChunk env r src).2) := by
  unfold Merger.nextChunk Merger.nextChunkWithin
  simp only [h]
  set m₁ : Merger A :=
    { m with
      time := if src.stop.isSome then m.time else m.time + 1
      ringCursor := Function.update m.ringCursor r (src.base + src.pos)
      ringWaitTs := Function.update m.ringWaitTs r 0 } with hm₁
  have hcur : m₁.ringCursor r = src.base + src.pos := Function.update_self _ _ _
  have htime : m.time ≤ m₁.time := by
    rw [hm₁]
    simp only
    split <;> omega
  have hkept : OthersKept (some r) m m₁ := fun r' hr => by
    have hne : r' ≠ r := fun heq => hr (by rw [heq])
    exact ⟨Function.update_of_ne hne _ _, Function.update_of_ne hne _ _⟩
  obtain ⟨steps, hrefill, hwithin⟩ := refill_lossy env r stop (stop - m₁.ringCursor r + 1) m₁ (Nat.le_refl _)
  generalize Merger.refill env r stop (stop - m₁.ringCursor r + 1) m₁ = out at hrefill hwithin ⊢
  obtain ⟨m₂, batch⟩ := out
  refine ⟨steps, ?_, fun limit log hlimit => by rw [hwithin limit log (by omega)]⟩
  have hrest : OthersKept (some r) m₁ m₂ := fun r' hr => by
    have hne : r' ≠ r := fun heq => hr (by rw [heq])
    exact ⟨hrefill.others r' hne, by rw [hrefill.waits]⟩
  exact
    { consumed := fun x => by
        have hown := hrefill.consumed x
        rw [hcur] at hown
        exact ⟨hown.tiles, hown.samples, hown.left⟩
      others := fun r' hr => ⟨(hrefill.untouched hr).samples, (hrefill.untouched hr).steps⟩
      kept := hkept.trans hrest
      added := hrefill.added
      time := htime.trans hrefill.time
      source := rfl
      behind := by rw [← hcur]; exact hrefill.tiles.split.le
      stretch := hrefill.stretch
      room := by rw [← hcur]; exact hrefill.room
      heads := fun hmono hle => hrefill.heads hmono (by rw [hcur]; exact hle.trans (hmono _ _ htime)) }

section Past

variable {m₁ m₂ : Merger A} {pos : Nat} {steps steps' : List RingStep} (hpast : ValuesPast env r stop m src m₁ pos steps)

omit [Accum A] in
include hpast in
/-- It stops at a stamp below the watermark. -/
theorem ValuesPast.stamp (hstop : src.stop = some stop) {s : Sample} (hat : src.data[pos]? = some s) :
    Advanced env r stop m src (m₁, { src with pos := pos }, true) steps where
  consumed := hpast.consumed
  others := hpast.others
  kept := hpast.kept
  added := hpast.added
  time := hpast.time.ge
  chunk := hpast.chunk
  stopped := hstop
  shrinks := (Nat.le_add_left _ _).trans hpast.consumed.left
  more _ := ⟨s, hat⟩
  heads hmono hle := by
    have hin := (List.getElem?_eq_some_iff.mp hat).1
    rw [← hpast.time] at hle
    refine ⟨hle, ?_⟩
    simp only [place, if_true]
    omega

omit [Accum A] in
include hpast in
/-- It stops at a stamp that has to wait, with the cursor on it. -/
theorem ValuesPast.wait (hstop : src.stop = some stop) (wait : UInt64) {s : Sample} (hat : src.data[pos]? = some s) :
    Advanced env r stop m src
      ({ m₁ with
          ringCursor := Function.update m₁.ringCursor r (src.base + pos)
          ringWaitTs := Function.update m₁.ringWaitTs r wait }, { src with pos := pos }, false) steps := by
  have hself : Function.update m₁.ringCursor r (src.base + pos) r = src.base + pos := Function.update_self _ _ _
  have hin := (List.getElem?_eq_some_iff.mp hat).1
  exact
    { consumed := by
        have hown := hpast.consumed.weaken (Nat.le_refl _) (Nat.zero_le _)
        simp only [place, Bool.false_eq_true, if_false, hself]
        exact ⟨hown.tiles, hown.samples, hown.left⟩
      others := fun r' hr => ⟨(hpast.others r' hr).samples, (hpast.others r' hr).steps⟩
      kept := hpast.kept.trans fun r' hr => by
        have hne : r' ≠ r := fun heq => hr (by rw [heq])
        exact ⟨Function.update_of_ne hne _ _, Function.update_of_ne hne _ _⟩
      added := hpast.added
      time := hpast.time.ge
      chunk := hpast.chunk
      stopped := hstop
      shrinks := (Nat.le_add_left _ _).trans hpast.consumed.left
      more := fun hno => by cases hno
      heads := fun hmono hle => by
        rw [← hpast.time] at hle
        refine ⟨hle, ?_⟩
        simp only [place, Bool.false_eq_true, if_false, hself]
        omega }

variable (hend : pos = src.data.length)

omit [Accum A] in
include hpast hend in
/-- It stops because the ring has nothing more for this pass. -/
theorem ValuesPast.dry (hread : Reread env r stop m₁ { src with pos := pos }
      (m₂, { src with pos := pos, stop := some stop }, []) steps') :
    Advanced env r stop m src (m₂, { src with pos := pos, stop := some stop }, false) (steps ++ steps') where
  consumed := by
    simp only [place, Bool.false_eq_true, if_false]
    exact hpast.consumed.trans ((hread.consumed _).weaken (Nat.le_refl _) (Nat.zero_le _))
  others r' hr := (hpast.others r' hr).trans (hread.others r' hr)
  kept := hpast.kept.trans hread.kept
  added := by
    have hadded := hread.added
    rw [hpast.added, Nat.add_assoc, ← addedLost_append] at hadded
    exact hadded
  time := hpast.time.ge.trans hread.time
  chunk := ⟨hpast.chunk.ring, hpast.chunk.pos, hpast.chunk.data⟩
  stopped := rfl
  shrinks := (Nat.le_add_left _ _).trans hpast.consumed.left
  more hno := by cases hno
  heads hmono hle := by
    have hle' : src.base + pos ≤ env.head m₁.time r := by rw [hpast.time, hend]; exact hle
    refine ⟨hle.trans (hmono _ _ (hpast.time.ge.trans hread.time)), ?_⟩
    simp only [place, Bool.false_eq_true, if_false]
    exact hread.heads hmono hle'

omit [Accum A] in
include hpast hend in
/-- It goes on in another chunk, and there is less left than before. -/
theorem ValuesPast.again {batch : List Sample} {out : Merger A × MergeSource × Bool} {steps'' : List RingStep}
    (hread : Reread env r stop m₁ { src with pos := pos } (m₂, { src with pos := pos, stop := some stop }, batch) steps')
    (hnext : Advanced env r stop m₂ ⟨batch, 0, m₂.ringCursor r, some stop, some r⟩ out steps'') :
    Advanced env r stop m src out (steps ++ steps' ++ steps'') := by
  have hless : MergeSource.left stop ⟨batch, 0, m₂.ringCursor r, some stop, some r⟩ ≤
      MergeSource.left stop { src with pos := pos } := by
    have hbehind := hread.behind
    have hroom := hread.room
    simp only [MergeSource.left] at hbehind hroom ⊢
    omega
  exact
    { consumed := (hpast.consumed.trans (hread.consumed _)).trans (hnext.consumed.weaken hless (Nat.le_refl _))
      others := fun r' hr => ((hpast.others r' hr).trans (hread.others r' hr)).trans (hnext.others r' hr)
      kept := (hpast.kept.trans hread.kept).trans hnext.kept
      added := by
        have hadded := hread.added
        rw [hpast.added, Nat.add_assoc, ← addedLost_append] at hadded
        rw [hnext.added, addedLost_append, ← Nat.add_assoc]
        exact congrArg (· + addedLost steps'') hadded
      time := (hpast.time.ge.trans hread.time).trans hnext.time
      chunk := hnext.chunk
      stopped := hnext.stopped
      shrinks := hnext.shrinks.trans (hless.trans ((Nat.le_add_left _ _).trans hpast.consumed.left))
      more := hnext.more
      heads := fun hmono hle => by
        have hle' : src.base + pos ≤ env.head m₁.time r := by rw [hpast.time, hend]; exact hle
        exact hnext.heads hmono (hread.heads hmono hle') }

end Past

theorem nextStampLoop_lossy (watermark : UInt64) (k : Nat) (h : Chunk env r src)
    (hstop : src.stop = some stop ∨ src.stop = none ∧ src.data = [] ∧ env.head m.time r = stop)
    (hk : stop - (src.base + src.data.length) + 2 ≤ k) :
    ∃ steps, Advanced env r stop m src (Merger.nextStampLoop H env watermark k m src) steps ∧
      ∀ limit rounds log, stop + 1 ≤ limit → stop - (src.base + src.data.length) + 2 ≤ rounds →
        Merger.nextStampWithin H env limit watermark rounds m log src =
          some ((Merger.nextStampLoop H env watermark k m src).1, log ++ steps,
            (Merger.nextStampLoop H env watermark k m src).2) := by
  induction k generalizing m src with
  | zero => omega
  | succ k ih =>
      obtain ⟨data, pos₀, base, st, ring⟩ := src
      obtain rfl : ring = some r := h.ring
      obtain ⟨m₁, pos, hpass⟩ : ∃ m₁ pos, Merger.passValues H (some r) (data.drop pos₀) m pos₀ = (m₁, pos) :=
        ⟨_, _, rfl⟩
      have hpast := passValues_lossy h stop hpass
      simp only at hstop hk
      generalize hloop : Merger.nextStampLoop H env watermark (k + 1) m ⟨data, pos₀, base, st, some r⟩ = out
      unfold Merger.nextStampLoop at hloop
      simp only [hpass] at hloop
      cases hat : data[pos]? with
      | some s =>
          obtain rfl : st = some stop := by
            rcases hstop with hst | ⟨-, hnil, -⟩
            · exact hst
            · rw [hnil] at hat
              cases hat
          simp only [hat] at hloop
          by_cases hlt : s.timestamp < watermark
          · rw [if_pos hlt] at hloop
            subst hloop
            refine ⟨_, hpast.stamp rfl hat, fun limit rounds log _ hrounds => ?_⟩
            obtain ⟨rounds, rfl⟩ : ∃ n, rounds = n + 1 := ⟨rounds - 1, by omega⟩
            unfold Merger.nextStampWithin
            simp only [hpass, hat, if_pos hlt]
          · rw [if_neg hlt] at hloop
            subst hloop
            refine ⟨_, hpast.wait rfl s.timestamp hat, fun limit rounds log _ hrounds => ?_⟩
            obtain ⟨rounds, rfl⟩ : ∃ n, rounds = n + 1 := ⟨rounds - 1, by omega⟩
            unfold Merger.nextStampWithin
            simp only [hpass, hat, if_neg hlt]
      | none =>
          simp only [hat] at hloop
          have hend : pos = data.length := Nat.le_antisymm hpast.chunk.pos (List.getElem?_eq_none_iff.mp hat)
          have hget : st.getD (env.head m₁.time r) = stop := by
            rw [hpast.time]
            exact chunk_stop hstop
          obtain ⟨steps, hread, hwithin⟩ := nextChunk_lossy m₁ ⟨data, pos, base, st, some r⟩ hget
          generalize m₁.nextChunk env r ⟨data, pos, base, st, some r⟩ = chunk at hloop hread hwithin
          obtain ⟨m₂, src₂, batch⟩ := chunk
          obtain rfl : src₂ = ⟨data, pos, base, some stop, some r⟩ := hread.source
          have hbehind := hread.behind
          have hroom := hread.room
          simp only at hbehind hroom hwithin hloop
          cases batch with
          | nil =>
              simp only at hloop
              subst hloop
              refine ⟨_, hpast.dry hend hread, fun limit rounds log hlimit hrounds => ?_⟩
              obtain ⟨rounds, rfl⟩ : ∃ n, rounds = n + 1 := ⟨rounds - 1, by omega⟩
              unfold Merger.nextStampWithin
              simp only [hpass, hat, hwithin limit _ hlimit, List.append_assoc]
          | cons x batch =>
              simp only at hloop
              have hlen : 0 < (x :: batch).length := Nat.succ_pos _
              have hnext : Chunk env r ⟨x :: batch, 0, m₂.ringCursor r, some stop, some r⟩ :=
                ⟨rfl, Nat.zero_le _, hread.stretch⟩
              obtain ⟨steps', hadv, hwithin'⟩ := ih (m := m₂) hnext (Or.inl rfl) (by simp only; omega)
              rw [hloop] at hadv hwithin'
              refine ⟨_, hpast.again hend hread hadv, fun limit rounds log hlimit hrounds => ?_⟩
              obtain ⟨rounds, rfl⟩ : ∃ n, rounds = n + 1 := ⟨rounds - 1, by omega⟩
              simp only at hrounds
              unfold Merger.nextStampWithin
              simp only [hpass, hat, hwithin limit _ hlimit]
              rw [hwithin' limit rounds _ hlimit (by simp only; omega), List.append_assoc, List.append_assoc,
                List.append_assoc]

end Next

end SlickPerfmon
