import SlickPerfmon.Merge.MergePass
import Mathlib.Data.List.TakeWhile
import Mathlib.Tactic.Set

/-!
# One source of the merge

A chunk is a detail: what a source has left in a pass is a stretch of its ring's log, and `next_stamp` hands the
values in front of the next stamp over, whatever the chunks are.
-/

namespace SlickPerfmon

open Library

/-- The samples of a log from index `a` up to index `b`. -/
def logFrom (log : Nat → Sample) (a b : Nat) : List Sample := (List.range (b - a)).map fun k => log (a + k)

section LogFrom

variable {log : Nat → Sample} {a b c : Nat}

@[simp] theorem length_logFrom : (logFrom log a b).length = b - a := by simp [logFrom]

theorem logFrom_eq_nil (h : b ≤ a) : logFrom log a b = [] := by
  simp [logFrom, Nat.sub_eq_zero_of_le h]

theorem getElem?_logFrom (k : Nat) : (logFrom log a b)[k]? = if a + k < b then some (log (a + k)) else none := by
  unfold logFrom
  rw [List.getElem?_map]
  split
  · rw [List.getElem?_range (by omega)]; rfl
  · rw [List.getElem?_eq_none (by simp; omega)]; rfl

theorem logFrom_append (hab : a ≤ b) (hbc : b ≤ c) : logFrom log a b ++ logFrom log b c = logFrom log a c := by
  refine List.ext_getElem? fun k => ?_
  rw [List.getElem?_append, length_logFrom]
  split
  · rw [getElem?_logFrom, getElem?_logFrom, if_pos (by omega), if_pos (by omega)]
  · rw [getElem?_logFrom, getElem?_logFrom, show b + (k - (b - a)) = a + k by omega]

theorem logFrom_cons (h : a < b) : logFrom log a b = log a :: logFrom log (a + 1) b := by
  have hone : logFrom log a (a + 1) = [log a] := by simp [logFrom]
  rw [← logFrom_append (Nat.le_succ a) h, hone]
  rfl

theorem drop_logFrom (k : Nat) : (logFrom log a b).drop k = logFrom log (a + k) b := by
  refine List.ext_getElem? fun j => ?_
  rw [List.getElem?_drop, getElem?_logFrom, getElem?_logFrom, Nat.add_assoc]

theorem mem_logFrom {s : Sample} : s ∈ logFrom log a b ↔ ∃ i, a ≤ i ∧ i < b ∧ log i = s := by
  unfold logFrom
  simp only [List.mem_map, List.mem_range]
  constructor
  · rintro ⟨k, hk, rfl⟩
    exact ⟨a + k, by omega, by omega, rfl⟩
  · rintro ⟨i, hai, hib, rfl⟩
    exact ⟨i - a, by omega, by congr 1; omega⟩

end LogFrom

/-- A read that loses nothing is a stretch of the log. -/
theorem ringRead_intact {log : Nat → Sample} {mask h h' cursor maxN : Nat}
    (hlost : (ringRead log mask h h' cursor maxN).lost = 0) :
    ringRead log mask h h' cursor maxN = ⟨cursor, logFrom log cursor (min h (cursor + maxN)), 0⟩ := by
  unfold ringRead at hlost ⊢
  split
  · rw [logFrom_eq_nil (by omega)]
  · rename_i hcond
    rw [if_neg hcond] at hlost
    simp only at hlost ⊢
    have hstart : cursor ≤ readStart h mask cursor ∧ readStart h mask cursor ≤ h := by
      unfold readStart firstIntact
      split <;> split <;> omega
    have hstop : readStart h mask cursor ≤ readStop h (readStart h mask cursor) maxN := by
      unfold readStop
      split <;> omega
    have hfirst : readStart h mask cursor ≤
        readFirst (firstIntact h' mask) (readStart h mask cursor) (readStop h (readStart h mask cursor) maxN) := by
      generalize readStart h mask cursor = start at hstop ⊢
      generalize readStop h start maxN = stop at hstop ⊢
      unfold readFirst
      split
      · split <;> omega
      · omega
    have heq : readFirst (firstIntact h' mask) (readStart h mask cursor)
        (readStop h (readStart h mask cursor) maxN) = cursor := by omega
    have hsame : readStart h mask cursor = cursor := by omega
    rw [heq, hsame]
    have hend : readStop h cursor maxN = min h (cursor + maxN) := by
      unfold readStop
      split <;> omega
    rw [hend, Nat.sub_self]
    rfl

/-- A read that is not lapped loses nothing. -/
theorem ringRead_unlapped {log : Nat → Sample} {mask h h' cursor maxN : Nat} (hh : h ≤ cursor + mask)
    (hh' : h' ≤ cursor + mask) : (ringRead log mask h h' cursor maxN).lost = 0 := by
  have hfirst : firstIntact h mask ≤ cursor := by unfold firstIntact; split <;> omega
  have hfirst' : firstIntact h' mask ≤ cursor := by unfold firstIntact; split <;> omega
  unfold ringRead
  split
  · rfl
  · have hstart : readStart h mask cursor = cursor := by unfold readStart; split <;> omega
    have hvalid : readFirst (firstIntact h' mask) cursor (readStop h cursor maxN) = cursor :=
      if_neg (Nat.not_lt.mpr hfirst')
    simp only [hstart, hvalid, Nat.sub_self]

/-! ## Laps -/

section Laps

variable {A : Type} {env : World} {m m' m'' : Merger A}

variable (env) in
/-- From `m` to `m'` the reads are recorded, and where none of them was lapped nothing was lost. -/
structure ReadsOn (m m' : Merger A) : Prop where
  reads : m.reads <+: m'.reads
  lost : m.ringLost ≤ m'.ringLost
  intact : Unlapped env m m' → m'.ringLost = m.ringLost

theorem ReadsOn.quiet (hreads : m'.reads = m.reads) (hlost : m'.ringLost = m.ringLost) : ReadsOn env m m' :=
  ⟨hreads ▸ List.prefix_refl _, hlost.ge, fun _ => hlost⟩

theorem Unlapped.split (h : Unlapped env m m'') (hreads : m.reads <+: m'.reads) (hreads' : m'.reads <+: m''.reads) :
    Unlapped env m m' ∧ Unlapped env m' m'' := by
  obtain ⟨new, hnew⟩ := hreads
  obtain ⟨more, hmore⟩ := hreads'
  rw [Unlapped, ← hmore, ← hnew, List.append_assoc, List.drop_left] at h
  constructor
  · rw [Unlapped, ← hnew, List.drop_left]
    exact fun x hx => h x (List.mem_append_left _ hx)
  · rw [Unlapped, ← hmore, List.drop_left]
    exact fun x hx => h x (List.mem_append_right _ hx)

theorem ReadsOn.trans (h : ReadsOn env m m') (h' : ReadsOn env m' m'') : ReadsOn env m m'' where
  reads := h.reads.trans h'.reads
  lost := h.lost.trans h'.lost
  intact hun := by
    obtain ⟨hun, hun'⟩ := hun.split h.reads h'.reads
    exact (h'.intact hun').trans (h.intact hun)

end Laps

/-! ## What a stretch of a pass does -/

section Fed

variable {A : Type} [Accum A] (H : HeapLib)

/-- The calls of `on_event` for these samples. -/
def handedBy (P : Pairer A) : List (Option Nat × Sample) → List Handed
  | [] => []
  | (ring, s) :: trace => ⟨ring, s, P.pairsCleanly s⟩ :: handedBy (P.onEvent H s) trace

theorem handedBy_append (P : Pairer A) (a b : List (Option Nat × Sample)) :
    handedBy H P (a ++ b) = handedBy H P a ++ handedBy H (a.foldl (fun P x => P.onEvent H x.2) P) b := by
  induction a generalizing P with
  | nil => rfl
  | cons x a ih => simp [handedBy, ih]

theorem handedBy_map (P : Pairer A) (trace : List (Option Nat × Sample)) :
    (handedBy H P trace).map (fun h => (h.ring, h.sample)) = trace := by
  induction trace generalizing P with
  | nil => rfl
  | cons x trace ih => simp [handedBy, ih]

/-- From `m` to `m'` the pairer is handed `trace`, and the shared ring and its stage stay as they are. -/
structure Fed (m m' : Merger A) (trace : List (Option Nat × Sample)) : Prop where
  pairer : m'.pairer = trace.foldl (fun P x => P.onEvent H x.2) m.pairer
  handed : m'.handed = m.handed ++ handedBy H m.pairer trace
  stage : m'.sharedStage = m.sharedStage
  cursor : m'.cursor = m.cursor
  taken : m'.taken = m.taken ∧ m'.skipped = m.skipped
  stalled : m'.stalledSince = m.stalledSince ∧ m'.stalledSlots = m.stalledSlots
  time : m.time ≤ m'.time
  lost : m.ringLost ≤ m'.ringLost

variable {H} {m m' m'' : Merger A} {a b : List (Option Nat × Sample)}

theorem Fed.refl (m : Merger A) : Fed H m m [] :=
  ⟨rfl, (List.append_nil _).symm, rfl, rfl, ⟨rfl, rfl⟩, ⟨rfl, rfl⟩, Nat.le_refl _, Nat.le_refl _⟩

theorem Fed.trans (h : Fed H m m' a) (h' : Fed H m' m'' b) : Fed H m m'' (a ++ b) where
  pairer := by rw [h'.pairer, h.pairer, List.foldl_append]
  handed := by rw [h'.handed, h.handed, h.pairer, handedBy_append, List.append_assoc]
  stage := h'.stage.trans h.stage
  cursor := h'.cursor.trans h.cursor
  taken := ⟨h'.taken.1.trans h.taken.1, h'.taken.2.trans h.taken.2⟩
  stalled := ⟨h'.stalled.1.trans h.stalled.1, h'.stalled.2.trans h.stalled.2⟩
  time := h.time.trans h'.time
  lost := h.lost.trans h'.lost

/-- The ring state of every ring but `ring` is the same. -/
def OthersKept (ring : Option Nat) (m m' : Merger A) : Prop :=
  ∀ r, ring ≠ some r → m'.ringCursor r = m.ringCursor r ∧ m'.ringWaitTs r = m.ringWaitTs r

omit [Accum A] in
theorem OthersKept.refl (ring : Option Nat) (m : Merger A) : OthersKept ring m m := fun _ _ => ⟨rfl, rfl⟩

omit [Accum A] in
theorem OthersKept.trans {ring : Option Nat} (h : OthersKept ring m m') (h' : OthersKept ring m' m'') :
    OthersKept ring m m'' := fun r hr => ⟨(h' r hr).1.trans (h r hr).1, (h' r hr).2.trans (h r hr).2⟩

end Fed

/-! ## `next_stamp` -/

section Next

variable {A : Type} [Accum A] (H : HeapLib) (env : World)

/-- The values in front of the first stamp. -/
def valuesOf (l : List Sample) : List Sample := l.takeWhile fun s => !s.isStamp

/-- From the first stamp on. -/
def fromStamp (l : List Sample) : List Sample := l.dropWhile fun s => !s.isStamp

theorem valuesOf_append_fromStamp (l : List Sample) : valuesOf l ++ fromStamp l = l := List.takeWhile_append_dropWhile

theorem value_of_mem {l : List Sample} {s : Sample} (h : s ∈ valuesOf l) : s.isStamp = false := by
  have := List.mem_takeWhile_imp (p := fun s : Sample => !s.isStamp) h
  simpa using this

theorem fromStamp_head {l tl : List Sample} {s : Sample} (h : fromStamp l = s :: tl) : s.isStamp = true := by
  have := List.head?_dropWhile_not (fun s : Sample => !s.isStamp) l
  unfold fromStamp at h
  rw [h] at this
  simpa using this

theorem isStamp_of_head {l : List Sample} {s : Sample} (h : (fromStamp l).head? = some s) : s.isStamp = true := by
  cases hf : fromStamp l with
  | nil => rw [hf] at h; cases h
  | cons x tl =>
      rw [hf] at h
      cases h
      exact fromStamp_head hf

theorem fed_onEvent (m : Merger A) (ring : Option Nat) (s : Sample) : Fed H m (m.onEvent H ring s) [(ring, s)] :=
  ⟨rfl, rfl, rfl, rfl, ⟨rfl, rfl⟩, ⟨rfl, rfl⟩, Nat.le_refl _, Nat.le_refl _⟩

theorem passValues_spec (ring : Option Nat) (l : List Sample) (m : Merger A) (pos : Nat) :
    (Merger.passValues H ring l m pos).2 = pos + (valuesOf l).length ∧
    Fed H m (Merger.passValues H ring l m pos).1 ((valuesOf l).map fun s => (ring, s)) ∧
    (Merger.passValues H ring l m pos).1.ringCursor = m.ringCursor ∧
    (Merger.passValues H ring l m pos).1.ringWaitTs = m.ringWaitTs ∧
    (Merger.passValues H ring l m pos).1.time = m.time ∧
    (Merger.passValues H ring l m pos).1.ringLost = m.ringLost := by
  induction l generalizing m pos with
  | nil => exact ⟨rfl, .refl m, rfl, rfl, rfl, rfl⟩
  | cons s l ih =>
      cases hs : s.isStamp with
      | true =>
          have hvals : valuesOf (s :: l) = [] := by simp [valuesOf, hs]
          have hpass : Merger.passValues H ring (s :: l) m pos = (m, pos) := by
            rw [Merger.passValues, if_pos hs]
          rw [hpass, hvals]
          exact ⟨rfl, .refl m, rfl, rfl, rfl, rfl⟩
      | false =>
          have hvals : valuesOf (s :: l) = s :: valuesOf l := by simp [valuesOf, hs]
          have hpass : Merger.passValues H ring (s :: l) m pos =
              Merger.passValues H ring l { m.onEvent H ring s with progressed := true } (pos + 1) := by
            rw [Merger.passValues, if_neg (by rw [hs]; simp)]
          obtain ⟨hpos, hfed, hc, hw, ht, hl⟩ := ih { m.onEvent H ring s with progressed := true } (pos + 1)
          have hone : Fed H m { m.onEvent H ring s with progressed := true } [(ring, s)] :=
            ⟨rfl, rfl, rfl, rfl, ⟨rfl, rfl⟩, ⟨rfl, rfl⟩, Nat.le_refl _, Nat.le_refl _⟩
          rw [hpass, hvals]
          refine ⟨?_, hone.trans hfed, hc, hw, ht, hl⟩
          rw [hpos, List.length_cons]
          omega

theorem passValues_reads (ring : Option Nat) (l : List Sample) (m : Merger A) (pos : Nat) :
    (Merger.passValues H ring l m pos).1.reads = m.reads := by
  induction l generalizing m pos with
  | nil => rfl
  | cons s l ih =>
      unfold Merger.passValues
      split
      · rfl
      · exact ih _ _

omit [Accum A] in
theorem readsOn_refill (r stop fuel : Nat) (m : Merger A) : ReadsOn env m (Merger.refill env r stop fuel m).1 := by
  induction fuel generalizing m with
  | zero => exact .quiet rfl rfl
  | succ fuel ih =>
      unfold Merger.refill
      simp only
      generalize (if stop > m.ringCursor r then min (stop - m.ringCursor r) kMergeChunk else 0) = room
      have hone : ReadsOn env m
          { m with
            time := m.time + 2
            ringCursor := Function.update m.ringCursor r (ringRead (env.log r) env.mask (env.head m.time r)
              (env.head (m.time + 1) r) (m.ringCursor r) room).cursor
            ringLost := m.ringLost + (ringRead (env.log r) env.mask (env.head m.time r)
              (env.head (m.time + 1) r) (m.ringCursor r) room).lost
            reads := m.reads ++ [⟨r, m.time, m.ringCursor r⟩] } := by
        refine ⟨List.prefix_append _ _, Nat.le_add_right _ _, fun hun => ?_⟩
        have hun := hun ⟨r, m.time, m.ringCursor r⟩ (by simp)
        simp only [ringRead_unlapped hun.1 hun.2, Nat.add_zero]
      split
      · exact hone
      · exact hone.trans (ih _)

omit [Accum A] in
/-- A refill that loses nothing reads the next stretch in one go. -/
theorem refill_spec {r stop fuel : Nat} {m : Merger A} (hstop : stop ≤ env.head m.time r)
    (hlost : (Merger.refill env r stop (fuel + 1) m).1.ringLost = m.ringLost) :
    Merger.refill env r stop (fuel + 1) m =
      ({ m with time := m.time + 2, reads := m.reads ++ [⟨r, m.time, m.ringCursor r⟩] },
        logFrom (env.log r) (m.ringCursor r) (min stop (m.ringCursor r + kMergeChunk))) := by
  have hupd : Function.update m.ringCursor r (m.ringCursor r) = m.ringCursor := Function.update_eq_self r _
  unfold Merger.refill at hlost ⊢
  simp only at hlost ⊢
  set room := if stop > m.ringCursor r then min (stop - m.ringCursor r) kMergeChunk else 0 with hroom
  have hread : (ringRead (env.log r) env.mask (env.head m.time r) (env.head (m.time + 1) r)
      (m.ringCursor r) room).lost = 0 := by
    split at hlost
    · simp only at hlost
      omega
    · rename_i hcond
      have := (readsOn_refill env r stop fuel
        { m with
          time := m.time + 2
          ringCursor := Function.update m.ringCursor r (ringRead (env.log r) env.mask (env.head m.time r)
            (env.head (m.time + 1) r) (m.ringCursor r) room).cursor
          ringLost := m.ringLost + (ringRead (env.log r) env.mask (env.head m.time r)
            (env.head (m.time + 1) r) (m.ringCursor r) room).lost
          reads := m.reads ++ [⟨r, m.time, m.ringCursor r⟩] }).lost
      simp only at this
      omega
  rw [ringRead_intact hread]
  have hend : min (env.head m.time r) (m.ringCursor r + room) = min stop (m.ringCursor r + kMergeChunk) ∨
      stop ≤ m.ringCursor r ∧ room = 0 := by
    rw [hroom]
    split
    · left; omega
    · right; omega
  simp only [hupd, Nat.add_zero, or_true, if_true]
  rcases hend with hend | ⟨hle, hzero⟩
  · rw [hend]
  · rw [hzero, logFrom_eq_nil (by omega), logFrom_eq_nil (by omega)]

theorem values_append_stamp {l tl : List Sample} {s : Sample} (h : fromStamp l = s :: tl) (r : List Sample) :
    valuesOf (l ++ r) = valuesOf l ∧ fromStamp (l ++ r) = s :: (tl ++ r) := by
  have hs := fromStamp_head h
  have hsplit := valuesOf_append_fromStamp l
  have hall : ∀ x ∈ valuesOf l, (!x.isStamp) = true := fun x hx => by rw [value_of_mem hx]; rfl
  have heq : l ++ r = valuesOf l ++ (s :: (tl ++ r)) := by
    conv_lhs => rw [← hsplit, h]
    simp
  rw [heq]
  unfold valuesOf at hall ⊢
  unfold fromStamp
  rw [List.takeWhile_append_of_pos hall, List.dropWhile_append_of_pos hall]
  simp [hs]

theorem values_append_none {l : List Sample} (h : fromStamp l = []) (r : List Sample) :
    valuesOf l = l ∧ valuesOf (l ++ r) = l ++ valuesOf r ∧ fromStamp (l ++ r) = fromStamp r := by
  have hsplit := valuesOf_append_fromStamp l
  rw [h, List.append_nil] at hsplit
  have hall : ∀ x ∈ l, (!x.isStamp) = true := by
    rw [← hsplit]
    exact fun x hx => by rw [value_of_mem hx]; rfl
  refine ⟨hsplit, ?_, ?_⟩
  · unfold valuesOf
    rw [List.takeWhile_append_of_pos hall]
  · unfold fromStamp
    rw [List.dropWhile_append_of_pos hall]

/-- A chunk of ring `r` in a pass that reads the ring up to `stop`. -/
structure RingChunk (r stop : Nat) (src : MergeSource) : Prop where
  ring : src.ring = some r
  stops : src.stop = some stop ∨ src.stop = none ∧ src.data = []
  pos : src.pos ≤ src.data.length
  data : src.data = logFrom (env.log r) src.base (src.base + src.data.length)
  reach : src.base + src.data.length ≤ stop

theorem RingChunk.drop {env : World} {r stop : Nat} {src : MergeSource} (h : RingChunk env r stop src) :
    src.data.drop src.pos = logFrom (env.log r) (src.base + src.pos) (src.base + src.data.length) := by
  conv_lhs => rw [h.data]
  exact drop_logFrom src.pos

/-- What `next_stamp` leaves of a ring with `rest` still to be read in the pass. -/
structure RingMoved (watermark : UInt64) (r stop : Nat) (rest : List Sample) (m : Merger A)
    (out : Merger A × MergeSource × Bool) : Prop where
  fed : Fed H m out.1 ((valuesOf rest).map fun s => (some r, s))
  others : OthersKept (some r) m out.1
  chunk : RingChunk env r stop out.2.1
  front : logFrom (env.log r) (out.2.1.base + out.2.1.pos) stop = fromStamp rest
  stopped : out.2.1.stop = some stop
  more : out.2.2 = true → ∃ s, (fromStamp rest).head? = some s ∧ s.timestamp < watermark ∧
    out.2.1.data[out.2.1.pos]? = some s
  done : out.2.2 = false → (∀ s, (fromStamp rest).head? = some s → watermark ≤ s.timestamp) ∧
    out.1.ringCursor r = out.2.1.base + out.2.1.pos ∧
    out.1.ringWaitTs r = ((fromStamp rest).head?.map Sample.timestamp).getD 0

omit [Accum A] in
theorem readsOn_nextChunk (r : Nat) (m : Merger A) (src : MergeSource) :
    ReadsOn env m (m.nextChunk env r src).1 := by
  unfold Merger.nextChunk
  simp only
  refine ReadsOn.trans ?_ (readsOn_refill env r _ _ _)
  exact .quiet rfl rfl

theorem readsOn_nextStampLoop (watermark : UInt64) (fuel : Nat) (m : Merger A) (src : MergeSource) :
    ReadsOn env m (Merger.nextStampLoop H env watermark fuel m src).1 := by
  induction fuel generalizing m src with
  | zero => exact .quiet rfl rfl
  | succ fuel ih =>
      have hpass := (passValues_spec H src.ring (src.data.drop src.pos) m src.pos).2.2.2.2.2
      have hreads := passValues_reads H src.ring (src.data.drop src.pos) m src.pos
      unfold Merger.nextStampLoop
      generalize Merger.passValues H src.ring (src.data.drop src.pos) m src.pos = out at hpass hreads ⊢
      obtain ⟨m₁, pos⟩ := out
      simp only at hpass hreads ⊢
      have hquiet : ReadsOn env m m₁ := .quiet hreads hpass
      split
      · exact hquiet
      · exact hquiet
      · split
        · exact hquiet
        · exact hquiet.trans (.quiet rfl rfl)
      · rename_i r _ _
        have hchunk := readsOn_nextChunk env r m₁ { src with pos := pos }
        split
        · rename_i heq
          rw [heq] at hchunk
          exact hquiet.trans hchunk
        · rename_i heq
          rw [heq] at hchunk
          exact (hquiet.trans hchunk).trans (ih _ _)

/-- Reading ring `r` again from `index` on changes only where it stands. -/
structure RingReread (r index : Nat) (m m' : Merger A) : Prop where
  fed : Fed H m m' []
  others : OthersKept (some r) m m'
  cursor : m'.ringCursor r = index
  wait : m'.ringWaitTs r = 0
  lost : m'.ringLost = m.ringLost

variable {H} in
/-- The next chunk starts where the last one ended. -/
theorem nextChunk_spec {r stop : Nat} {m : Merger A} {src : MergeSource} (h : RingChunk env r stop src)
    (hstop : src.stop = none → env.head m.time r = stop)
    (hhead : ∀ t, m.time ≤ t → stop ≤ env.head t r)
    (hlost : (m.nextChunk env r src).1.ringLost = m.ringLost) :
    ∃ m', RingReread H r (src.base + src.pos) m m' ∧ m.nextChunk env r src =
      (m', { src with stop := some stop },
        logFrom (env.log r) (src.base + src.pos) (min stop (src.base + src.pos + kMergeChunk))) := by
  have hget : src.stop.getD (env.head m.time r) = stop := by
    rcases h.stops with hs | ⟨hs, -⟩
    · rw [hs]; rfl
    · rw [hs]; exact hstop hs
  unfold Merger.nextChunk at hlost ⊢
  simp only [hget] at hlost ⊢
  set m₁ : Merger A :=
    { m with
      time := if src.stop.isSome then m.time else m.time + 1
      ringCursor := Function.update m.ringCursor r (src.base + src.pos)
      ringWaitTs := Function.update m.ringWaitTs r 0 } with hm₁
  have htime : m.time ≤ m₁.time := by
    rw [hm₁]
    simp only
    split <;> omega
  have hcur : m₁.ringCursor r = src.base + src.pos := Function.update_self _ _ _
  rw [refill_spec env (hhead _ htime) hlost, hcur]
  refine ⟨_, ?_, rfl⟩
  exact
    { fed := ⟨rfl, (List.append_nil _).symm, rfl, rfl, ⟨rfl, rfl⟩, ⟨rfl, rfl⟩, htime.trans (Nat.le_add_right _ 2),
        Nat.le_refl _⟩
      others := fun r' hr => by
        have hne : r' ≠ r := fun heq => hr (by rw [heq])
        exact ⟨Function.update_of_ne hne _ _, Function.update_of_ne hne _ _⟩
      cursor := hcur
      wait := Function.update_self _ _ _
      lost := rfl }

/-- The values in front of the next stamp of a chunk went to the pairer, and the source is at `pos`. -/
structure RingPast (r stop : Nat) (m : Merger A) (src : MergeSource) (m₁ : Merger A) (pos : Nat) : Prop where
  fed : Fed H m m₁ ((valuesOf (src.data.drop src.pos)).map fun s => (some r, s))
  others : OthersKept (some r) m m₁
  chunk : RingChunk env r stop { src with pos := pos }
  place : pos = src.pos + (valuesOf (src.data.drop src.pos)).length
  found : src.data[pos]? = (fromStamp (src.data.drop src.pos)).head?
  rest : logFrom (env.log r) (src.base + src.pos) stop =
    src.data.drop src.pos ++ logFrom (env.log r) (src.base + src.data.length) stop
  time : m₁.time = m.time
  lost : m₁.ringLost = m.ringLost

variable {H env} {watermark : UInt64} {r stop : Nat} {m m₁ : Merger A} {src : MergeSource} {pos : Nat}

theorem RingChunk.passValues (h : RingChunk env r stop src)
    (hout : Merger.passValues H (some r) (src.data.drop src.pos) m src.pos = (m₁, pos)) :
    RingPast H env r stop m src m₁ pos := by
  obtain ⟨hpos, hfed, hc, hw, ht, hl⟩ := passValues_spec H (some r) (src.data.drop src.pos) m src.pos
  rw [hout] at hpos hfed hc hw ht hl
  simp only at hpos hfed hc hw ht hl
  have hposle := h.pos
  have hlen : (valuesOf (src.data.drop src.pos)).length ≤ src.data.length - src.pos := by
    rw [← List.length_drop]
    exact (List.takeWhile_sublist _).length_le
  exact
    { fed := hfed
      others := fun _ _ => ⟨by rw [hc], by rw [hw]⟩
      chunk := ⟨h.ring, h.stops, by simp only; omega, h.data, h.reach⟩
      place := hpos
      found := by
        have hcat := congrArg (fun l : List Sample => l[(valuesOf (src.data.drop src.pos)).length]?)
          (valuesOf_append_fromStamp (src.data.drop src.pos))
        simp only [List.getElem?_append_right (Nat.le_refl _), Nat.sub_self, List.getElem?_drop, ← hpos] at hcat
        rw [← hcat, List.head?_eq_getElem?]
      rest := by
        rw [h.drop]
        exact (logFrom_append (Nat.add_le_add_left hposle _) h.reach).symm
      time := ht
      lost := hl }

namespace RingPast

variable {s : Sample} {tl : List Sample} (h : RingPast H env r stop m src m₁ pos)

include h

/-- The chunk holds the next stamp of the ring. -/
theorem at_stamp (hf : fromStamp (src.data.drop src.pos) = s :: tl) :
    src.data[pos]? = some s ∧ src.stop = some stop ∧
      valuesOf (logFrom (env.log r) (src.base + src.pos) stop) = valuesOf (src.data.drop src.pos) ∧
      logFrom (env.log r) (src.base + pos) stop = fromStamp (logFrom (env.log r) (src.base + src.pos) stop) ∧
      (fromStamp (logFrom (env.log r) (src.base + src.pos) stop)).head? = some s := by
  obtain ⟨hvals, hfrom⟩ := values_append_stamp hf (logFrom (env.log r) (src.base + src.data.length) stop)
  rw [← h.rest] at hvals hfrom
  have hat := h.found
  rw [hf, List.head?_cons] at hat
  refine ⟨hat, ?_, hvals, ?_, by rw [hfrom]; rfl⟩
  · rcases h.chunk.stops with hs | ⟨-, hnil⟩
    · exact hs
    · simp only at hnil
      rw [hnil] at hat
      cases hat
  · have hd := congrArg (List.drop (valuesOf (src.data.drop src.pos)).length)
      (valuesOf_append_fromStamp (logFrom (env.log r) (src.base + src.pos) stop))
    rw [← hvals, List.drop_left, hvals, drop_logFrom] at hd
    rw [hd, h.place, Nat.add_assoc]

/-- It stops at a stamp below the watermark. -/
theorem stamp (hf : fromStamp (src.data.drop src.pos) = s :: tl) (hlt : s.timestamp < watermark) :
    RingMoved H env watermark r stop (logFrom (env.log r) (src.base + src.pos) stop) m
      (m₁, { src with pos := pos }, true) := by
  obtain ⟨hat, hst, hvals, hfront, hhead⟩ := h.at_stamp hf
  exact
    { fed := by rw [hvals]; exact h.fed
      others := h.others
      chunk := h.chunk
      front := hfront
      stopped := hst
      more := fun _ => ⟨s, hhead, hlt, hat⟩
      done := fun hno => by cases hno }

/-- It stops at a stamp that has to wait. -/
theorem wait (hf : fromStamp (src.data.drop src.pos) = s :: tl) (hlt : ¬s.timestamp < watermark) :
    RingMoved H env watermark r stop (logFrom (env.log r) (src.base + src.pos) stop) m
      ({ m₁ with
          ringCursor := Function.update m₁.ringCursor r (src.base + pos)
          ringWaitTs := Function.update m₁.ringWaitTs r s.timestamp }, { src with pos := pos }, false) := by
  obtain ⟨-, hst, hvals, hfront, hhead⟩ := h.at_stamp hf
  have hfed := h.fed
  exact
    { fed := by
        rw [hvals]
        exact ⟨hfed.pairer, hfed.handed, hfed.stage, hfed.cursor, hfed.taken, hfed.stalled, hfed.time, hfed.lost⟩
      others := h.others.trans fun r' hr => by
        have hne : r' ≠ r := fun heq => hr (by rw [heq])
        exact ⟨Function.update_of_ne hne _ _, Function.update_of_ne hne _ _⟩
      chunk := h.chunk
      front := hfront
      stopped := hst
      more := fun hno => by cases hno
      done := fun _ => by
        refine ⟨fun s' hs' => ?_, Function.update_self _ _ _, ?_⟩
        · rw [hhead] at hs'
          cases hs'
          exact UInt64.not_lt.mp hlt
        · rw [hhead]
          exact Function.update_self _ _ _ }

/-- The chunk is used up. -/
theorem at_end (hf : fromStamp (src.data.drop src.pos) = []) :
    pos = src.data.length ∧ valuesOf (src.data.drop src.pos) = src.data.drop src.pos ∧
      valuesOf (logFrom (env.log r) (src.base + src.pos) stop) =
        src.data.drop src.pos ++ valuesOf (logFrom (env.log r) (src.base + src.data.length) stop) ∧
      fromStamp (logFrom (env.log r) (src.base + src.pos) stop) =
        fromStamp (logFrom (env.log r) (src.base + src.data.length) stop) := by
  obtain ⟨hall, hvals, hfrom⟩ := values_append_none hf (logFrom (env.log r) (src.base + src.data.length) stop)
  rw [← h.rest] at hvals hfrom
  refine ⟨?_, hall, hvals, hfrom⟩
  have hposle := h.chunk.pos
  have hat := h.found
  rw [hf, List.head?_nil, List.getElem?_eq_none_iff] at hat
  exact Nat.le_antisymm hposle hat

variable {m₂ : Merger A} (hf : fromStamp (src.data.drop src.pos) = []) (hread : RingReread H r (src.base + pos) m₁ m₂)

include hf hread

/-- It stops because the ring has nothing more for this pass. -/
theorem dry (hend : src.base + src.data.length = stop) :
    RingMoved H env watermark r stop (logFrom (env.log r) (src.base + src.pos) stop) m
      (m₂, { src with pos := pos, stop := some stop }, false) := by
  obtain ⟨hpos, hall, hvals, hfrom⟩ := h.at_end hf
  have hnil : logFrom (env.log r) (src.base + src.data.length) stop = [] := logFrom_eq_nil hend.ge
  rw [hnil] at hvals hfrom
  have hfed := h.fed.trans hread.fed
  rw [hall, List.append_nil] at hfed
  exact
    { fed := by
        rw [hvals, show valuesOf ([] : List Sample) = [] from rfl, List.append_nil]
        exact hfed
      others := h.others.trans hread.others
      chunk := ⟨h.chunk.ring, Or.inl rfl, h.chunk.pos, h.chunk.data, h.chunk.reach⟩
      front := by
        rw [hfrom, hpos]
        exact hnil
      stopped := rfl
      more := fun hno => by cases hno
      done := fun _ => by
        rw [hfrom]
        exact ⟨fun s' hs' => absurd hs' (Option.some_ne_none _).symm, hread.cursor, hread.wait⟩ }

/-- It goes on in another chunk. -/
theorem again {out : Merger A × MergeSource × Bool}
    (hnext : RingMoved H env watermark r stop (logFrom (env.log r) (src.base + src.data.length) stop) m₂ out) :
    RingMoved H env watermark r stop (logFrom (env.log r) (src.base + src.pos) stop) m out := by
  obtain ⟨-, hall, hvals, hfrom⟩ := h.at_end hf
  have hfed := (h.fed.trans hread.fed).trans hnext.fed
  rw [hall, List.append_nil, ← List.map_append, ← hvals] at hfed
  exact
    { fed := hfed
      others := (h.others.trans hread.others).trans hnext.others
      chunk := hnext.chunk
      front := by rw [hfrom]; exact hnext.front
      stopped := hnext.stopped
      more := by rw [hfrom]; exact hnext.more
      done := by rw [hfrom]; exact hnext.done }

end RingPast

variable (H env)

theorem nextStampLoop_ring {watermark : UInt64} {r stop fuel : Nat} {m : Merger A} {src : MergeSource}
    (h : RingChunk env r stop src) (hstop : src.stop = none → env.head m.time r = stop)
    (hhead : ∀ t, m.time ≤ t → stop ≤ env.head t r) (hfuel : stop - (src.base + src.data.length) + 2 ≤ fuel)
    (hlost : (Merger.nextStampLoop H env watermark fuel m src).1.ringLost = m.ringLost) :
    RingMoved H env watermark r stop (logFrom (env.log r) (src.base + src.pos) stop) m
      (Merger.nextStampLoop H env watermark fuel m src) := by
  induction fuel generalizing m src with
  | zero => omega
  | succ fuel ih =>
      obtain ⟨data, pos₀, base, st, ring⟩ := src
      obtain rfl : ring = some r := h.ring
      obtain ⟨m₁, pos, hpass⟩ : ∃ m₁ pos, Merger.passValues H (some r) (data.drop pos₀) m pos₀ = (m₁, pos) :=
        ⟨_, _, rfl⟩
      have hpast := h.passValues hpass
      have hreach := h.reach
      have hat := hpast.found
      simp only at hreach hat hstop hfuel
      generalize hloop : Merger.nextStampLoop H env watermark (fuel + 1) m ⟨data, pos₀, base, st, some r⟩ = out at hlost ⊢
      unfold Merger.nextStampLoop at hloop
      simp only [hpass] at hloop
      cases hf : fromStamp (data.drop pos₀) with
      | cons s tl =>
          rw [hf] at hat
          simp only [hat, List.head?_cons] at hloop
          by_cases hlt : s.timestamp < watermark
          · rw [if_pos hlt] at hloop
            subst hloop
            exact hpast.stamp hf hlt
          · rw [if_neg hlt] at hloop
            subst hloop
            exact hpast.wait hf hlt
      | nil =>
          rw [hf] at hat
          simp only [hat, List.head?_nil] at hloop
          obtain rfl : pos = data.length := (hpast.at_end hf).1
          have hsame : (m₁.nextChunk env r ⟨data, data.length, base, st, some r⟩).1.ringLost = m₁.ringLost := by
            have hle := (readsOn_nextChunk env r m₁ ⟨data, data.length, base, st, some r⟩).lost
            generalize m₁.nextChunk env r ⟨data, data.length, base, st, some r⟩ = next at hloop hle ⊢
            obtain ⟨m₂, src₂, batch⟩ := next
            have hl := hpast.lost
            cases batch with
            | nil =>
                simp only at hloop hle ⊢
                subst hloop
                exact hlost.trans hl.symm
            | cons x batch =>
                have hrest := (readsOn_nextStampLoop H env watermark fuel m₂
                  { src₂ with data := x :: batch, pos := 0, base := m₂.ringCursor r }).lost
                simp only at hloop hle hrest ⊢
                rw [hloop] at hrest
                omega
          obtain ⟨m₂, hread, hnext⟩ := nextChunk_spec (H := H) env hpast.chunk (fun hs => by rw [hpast.time]; exact hstop hs)
            (fun t hle => hhead t (by rw [← hpast.time]; exact hle)) hsame
          simp only [hnext] at hloop
          by_cases hstopped : base + data.length = stop
          · rw [logFrom_eq_nil ((Nat.min_le_left _ _).trans hstopped.ge)] at hloop
            simp only at hloop
            subst hloop
            exact hpast.dry hf hread hstopped
          · set batch := logFrom (env.log r) (base + data.length) (min stop (base + data.length + kMergeChunk)) with hbatch
            have hlenBatch : batch.length = min stop (base + data.length + kMergeChunk) - (base + data.length) := by
              rw [hbatch, length_logFrom]
            have hchunkPos : 0 < kMergeChunk := by decide
            have hne : batch ≠ [] := fun hnil => by
              rw [hnil, List.length_nil] at hlenBatch
              omega
            obtain ⟨x, tl, hb⟩ := List.exists_cons_of_ne_nil hne
            rw [hb] at hloop
            simp only [hread.cursor] at hloop
            rw [← hb] at hloop
            have hchunk₂ : RingChunk env r stop ⟨batch, 0, base + data.length, some stop, some r⟩ :=
              ⟨rfl, Or.inl rfl, Nat.zero_le _, by
                simp only
                rw [hlenBatch, hbatch]
                congr 1
                omega, by simp only; omega⟩
            subst hloop
            refine hpast.again hf hread (ih hchunk₂ (fun hs => by cases hs) (fun t' hle => hhead t' ?_)
              (by simp only; omega) (hlost.trans (hpast.lost.symm.trans hread.lost.symm)))
            exact (hpast.time.ge.trans hread.fed.time).trans hle

theorem nextStamp_ring (watermark : UInt64) {r stop : Nat} (m : Merger A) {src : MergeSource}
    (h : RingChunk env r stop src) (hstop : src.stop = none → env.head m.time r = stop)
    (hhead : ∀ t, m.time ≤ t → stop ≤ env.head t r)
    (hlost : (m.nextStamp H env watermark src).1.ringLost = m.ringLost) :
    RingMoved H env watermark r stop (logFrom (env.log r) (src.base + src.pos) stop) m
      (m.nextStamp H env watermark src) := by
  have hget : src.stop.getD (env.head m.time r) = stop := by
    rcases h.stops with hs | ⟨hs, -⟩
    · rw [hs]; rfl
    · rw [hs]; exact hstop hs
  unfold Merger.nextStamp at hlost ⊢
  simp only [h.ring, hget] at hlost ⊢
  exact nextStampLoop_ring H env h hstop hhead (by omega) hlost

/-- The staged stamps have no chunks. -/
theorem nextStamp_shared (watermark : UInt64) (m : Merger A) (src : MergeSource) (hring : src.ring = none) :
    ∃ m' src' more, m.nextStamp H env watermark src = (m', src', more) ∧
      Fed H m m' ((valuesOf (src.data.drop src.pos)).map fun s => (none, s)) ∧ OthersKept none m m' ∧
      m'.time = m.time ∧ src'.ring = none ∧
      (src'.data = src.data ∧ src'.pos = src.pos + (valuesOf (src.data.drop src.pos)).length) ∧
      src'.data.drop src'.pos = fromStamp (src.data.drop src.pos) ∧
      (more = true ↔ ∃ s, (fromStamp (src.data.drop src.pos)).head? = some s ∧ s.timestamp < watermark) ∧
      (fromStamp (src.data.drop src.pos)).head? = src'.data[src'.pos]? := by
  obtain ⟨data, pos₀, base, st, ring⟩ := src
  obtain rfl : ring = none := hring
  obtain ⟨hpos, hfed, hc, hw, ht, hl⟩ := passValues_spec H none (data.drop pos₀) m pos₀
  have hrest := congrArg (List.drop (valuesOf (data.drop pos₀)).length) (valuesOf_append_fromStamp (data.drop pos₀))
  rw [List.drop_left, List.drop_drop] at hrest
  have hhead : (fromStamp (data.drop pos₀)).head? = data[pos₀ + (valuesOf (data.drop pos₀)).length]? := by
    rw [hrest, List.head?_drop]
  unfold Merger.nextStamp Merger.nextStampLoop
  simp only
  generalize Merger.passValues H none (data.drop pos₀) m pos₀ = out at hpos hfed hc hw ht hl ⊢
  obtain ⟨m₁, pos⟩ := out
  simp only at hpos hfed hc hw ht hl ⊢
  subst hpos
  have hothers : OthersKept none m m₁ := fun _ _ => ⟨by rw [hc], by rw [hw]⟩
  cases hat : data[pos₀ + (valuesOf (data.drop pos₀)).length]? with
  | some s =>
      refine ⟨_, _, _, rfl, hfed, hothers, ht, rfl, ⟨rfl, rfl⟩, hrest.symm, ?_, hhead⟩
      rw [hhead, hat]
      simp
  | none =>
      refine ⟨_, _, _, rfl, hfed, hothers, ht, rfl, ⟨rfl, rfl⟩, hrest.symm, ?_, hhead⟩
      rw [hhead, hat]
      simp

end Next

/-! ## What a source has left -/

section Rest

/-- The samples of a run that a pass with this watermark hands over. -/
def below (watermark : UInt64) (l : List Sample) : List Sample :=
  l.takeWhile fun s => !s.isStamp || s.timestamp < watermark

/-- The samples from the first stamp at or past the watermark on. -/
def beyond (watermark : UInt64) (l : List Sample) : List Sample :=
  l.dropWhile fun s => !s.isStamp || s.timestamp < watermark

theorem below_append_beyond (watermark : UInt64) (l : List Sample) : below watermark l ++ beyond watermark l = l :=
  List.takeWhile_append_dropWhile

/-- What a source has left in a pass. -/
def MergeSource.rest (env : World) (src : MergeSource) : List Sample :=
  match src.ring with
  | none => src.data.drop src.pos
  | some r => logFrom (env.log r) (src.base + src.pos) (src.stop.getD 0)

/-- The values in front of the first stamp belong to a pass whatever its watermark. -/
theorem below_split (watermark : UInt64) (l : List Sample) :
    below watermark l = valuesOf l ++ below watermark (fromStamp l) ∧
      beyond watermark l = beyond watermark (fromStamp l) := by
  have hall : ∀ x ∈ valuesOf l, (!x.isStamp || decide (x.timestamp < watermark)) = true := fun x hx => by
    rw [value_of_mem hx]; rfl
  have hsplit := valuesOf_append_fromStamp l
  constructor
  · conv_lhs => rw [← hsplit]
    unfold below
    rw [List.takeWhile_append_of_pos hall]
  · conv_lhs => rw [← hsplit]
    unfold beyond
    rw [List.dropWhile_append_of_pos hall]

theorem below_stamp {watermark : UInt64} {s : Sample} (hs : s.timestamp < watermark) (tl : List Sample) :
    below watermark (s :: tl) = s :: (valuesOf tl ++ below watermark (fromStamp tl)) ∧
      beyond watermark (s :: tl) = beyond watermark (fromStamp tl) := by
  rw [← (below_split watermark tl).1, ← (below_split watermark tl).2]
  unfold below beyond
  rw [List.takeWhile_cons_of_pos (by simp [hs]), List.dropWhile_cons_of_pos (by simp [hs])]
  exact ⟨rfl, rfl⟩

theorem below_of_head {watermark : UInt64} {l : List Sample} (hl : ∀ s, l.head? = some s → s.isStamp = true)
    (h : ∀ s, l.head? = some s → watermark ≤ s.timestamp) : below watermark l = [] ∧ beyond watermark l = l := by
  cases l with
  | nil => exact ⟨rfl, rfl⟩
  | cons s tl =>
      have hs := hl s rfl
      have hle := UInt64.not_lt.mpr (h s rfl)
      unfold below beyond
      rw [List.takeWhile_cons_of_neg (by simp [hs, hle]), List.dropWhile_cons_of_neg (by simp [hs, hle])]
      exact ⟨rfl, rfl⟩

variable (env : World)

/-- A source of the heap: its next stamp is at hand. -/
structure Ready (watermark : UInt64) (time : Nat) (src : MergeSource) : Prop where
  chunk : ∀ r, src.ring = some r →
    ∃ stop, src.stop = some stop ∧ RingChunk env r stop src ∧ ∀ t, time ≤ t → stop ≤ env.head t r
  head : ∃ s, (src.rest env).head? = some s ∧ s.isStamp = true ∧ s.timestamp < watermark ∧
    src.data[src.pos]? = some s

/-- A source of the pass that has no stamp below the watermark left: its ring's cursor is on the first sample not
consumed. -/
def Exhausted {A : Type} (watermark : UInt64) (m : Merger A) (src : MergeSource) : Prop :=
  ∀ r, src.ring = some r →
    m.ringCursor r + (beyond watermark (src.rest env)).length = src.stop.getD 0 ∧
    m.ringWaitTs r = ((beyond watermark (src.rest env)).head?.map Sample.timestamp).getD 0

end Rest

/-! ## One stamp of a source -/

section Feed

variable {A : Type} [Accum A] (H : HeapLib) (env : World)

/-- What feeding the stamp `s` of a source leaves, with `tl` behind it. -/
structure Stepped (watermark : UInt64) (m : Merger A) (src : MergeSource) (s : Sample) (tl : List Sample)
    (out : Merger A × MergeSource × Bool) : Prop where
  fed : Fed H m out.1 ((src.ring, s) :: (valuesOf tl).map fun s => (src.ring, s))
  others : OthersKept src.ring m out.1
  ring : out.2.1.ring = src.ring
  stop : ∀ r, src.ring = some r → out.2.1.stop = src.stop
  rest : out.2.1.rest env = fromStamp tl
  data : src.ring = none → out.2.1.data = src.data ∧ out.2.1.pos ≤ src.data.length
  more : out.2.2 = true → Ready env watermark out.1.time out.2.1
  done : out.2.2 = false → below watermark (fromStamp tl) = [] ∧ Exhausted env watermark out.1 out.2.1

variable {H env}

theorem stepped_shared {watermark : UInt64} {m : Merger A} {src : MergeSource} {s : Sample} {tl : List Sample}
    (hring : src.ring = none) (hat : src.data[src.pos]? = some s) (hrest : src.rest env = s :: tl) :
    Stepped H env watermark m src s tl (m.feed H env watermark src) := by
  have hone : Fed H m (m.onEvent H none s) [(none, s)] := fed_onEvent H m none s
  have hpos : src.pos < src.data.length := (List.getElem?_eq_some_iff.mp hat).1
  have htl : src.data.drop (src.pos + 1) = tl := by
    have := congrArg List.tail hrest
    simpa [MergeSource.rest, hring] using this
  obtain ⟨m', src', more, hout, hfed, hothers, htime, hring', ⟨hdata, hpos'⟩, hdrop, hmore, hhead'⟩ :=
    nextStamp_shared H env watermark (m.onEvent H none s) ⟨src.data, src.pos + 1, src.base, src.stop, none⟩ rfl
  simp only [htl] at hfed hdrop hmore hhead'
  have hrest' : src'.rest env = fromStamp tl := by rw [MergeSource.rest, hring', ← hdrop]
  have hnone : ∀ r, src'.ring = some r → False := fun r hr => by rw [hring'] at hr; cases hr
  unfold Merger.feed
  simp only [hat, hring]
  rw [hout]
  exact
    { fed := by rw [hring]; exact hone.trans hfed
      others := by rw [hring]; exact hothers
      ring := by rw [hring, hring']
      stop := fun r hr => by rw [hring] at hr; cases hr
      rest := hrest'
      data := fun _ => ⟨hdata, by
        have hlen := congrArg List.length (valuesOf_append_fromStamp tl)
        rw [← htl, List.length_append, List.length_drop] at hlen
        simp only [htl] at hpos' hlen ⊢
        omega⟩
      more := fun htrue => by
        obtain ⟨s', hs', hlt'⟩ := hmore.mp htrue
        exact ⟨fun r hr => (hnone r hr).elim, s', by rw [hrest']; exact hs', isStamp_of_head hs', hlt',
          by rw [← hhead']; exact hs'⟩
      done := fun hfalse => by
        refine ⟨(below_of_head (fun s' => isStamp_of_head) fun s' hs' => UInt64.not_lt.mp fun hlt' => ?_).1,
          fun r hr => (hnone r hr).elim⟩
        rw [hmore.mpr ⟨s', hs', hlt'⟩] at hfalse
        cases hfalse }

theorem stepped_ring {watermark : UInt64} {m : Merger A} {src : MergeSource} {s : Sample} {tl : List Sample} {r : Nat}
    (h : Ready env watermark m.time src) (hring : src.ring = some r) (hat : src.data[src.pos]? = some s)
    (hrest : src.rest env = s :: tl) (hlost : (m.feed H env watermark src).1.ringLost = m.ringLost) :
    Stepped H env watermark m src s tl (m.feed H env watermark src) := by
  have hone : Fed H m (m.onEvent H (some r) s) [(some r, s)] := fed_onEvent H m (some r) s
  have hpos : src.pos < src.data.length := (List.getElem?_eq_some_iff.mp hat).1
  obtain ⟨stop, hst, hchunk, hreach⟩ := h.chunk r hring
  have hrest₀ : logFrom (env.log r) (src.base + src.pos) stop = s :: tl := by
    rw [← hrest, MergeSource.rest, hring, hst]
    rfl
  have htl : logFrom (env.log r) (src.base + (src.pos + 1)) stop = tl := by
    have := congrArg (List.drop 1) hrest₀
    rwa [drop_logFrom] at this
  have hchunk' : RingChunk env r stop ⟨src.data, src.pos + 1, src.base, src.stop, some r⟩ :=
    ⟨rfl, hchunk.stops, hpos, hchunk.data, hchunk.reach⟩
  unfold Merger.feed at hlost ⊢
  simp only [hat, hring] at hlost ⊢
  have hmoved := nextStamp_ring H env watermark (m.onEvent H (some r) s) hchunk'
    (fun hnone => by rw [hst] at hnone; cases hnone) hreach hlost
  simp only [htl] at hmoved
  set out := (m.onEvent H (some r) s).nextStamp H env watermark
    ⟨src.data, src.pos + 1, src.base, src.stop, some r⟩ with hout
  have hrest' : out.2.1.rest env = fromStamp tl := by
    rw [MergeSource.rest, hmoved.chunk.ring, hmoved.stopped]
    exact hmoved.front
  exact
    { fed := by rw [hring]; exact hone.trans hmoved.fed
      others := by rw [hring]; exact hmoved.others
      ring := by rw [hring]; exact hmoved.chunk.ring
      stop := fun r' hr' => by rw [hst]; exact hmoved.stopped
      rest := hrest'
      data := fun hnone => by rw [hring] at hnone; cases hnone
      more := fun htrue => by
        obtain ⟨s', hs', hlt', hat'⟩ := hmoved.more htrue
        refine ⟨fun r' hr' => ?_, s', by rw [hrest']; exact hs', isStamp_of_head hs', hlt', hat'⟩
        cases hmoved.chunk.ring.symm.trans hr'
        exact ⟨stop, hmoved.stopped, hmoved.chunk, fun t ht => hreach t (hmoved.fed.time.trans ht)⟩
      done := fun hfalse => by
        obtain ⟨hge, hcur, hwait⟩ := hmoved.done hfalse
        obtain ⟨hbelow, hbeyond⟩ := below_of_head (fun s' => isStamp_of_head) hge
        refine ⟨hbelow, fun r' hr' => ?_⟩
        cases hmoved.chunk.ring.symm.trans hr'
        rw [hrest', hbeyond]
        have hlen := congrArg List.length hmoved.front
        rw [length_logFrom] at hlen
        have hle := hmoved.chunk.reach
        have hple := hmoved.chunk.pos
        refine ⟨?_, hwait⟩
        rw [hcur, hmoved.stopped, Option.getD_some]
        omega }

variable (H env)

theorem feed_spec {watermark : UInt64} {m : Merger A} {src : MergeSource}
    (h : Ready env watermark m.time src)
    (hlost : (m.feed H env watermark src).1.ringLost = m.ringLost) :
    ∃ s tl, src.rest env = s :: tl ∧ s.isStamp = true ∧ s.timestamp < watermark ∧
      src.data[src.pos]? = some s ∧ Stepped H env watermark m src s tl (m.feed H env watermark src) := by
  obtain ⟨s, hhead, hs, hlt, hat⟩ := h.head
  obtain ⟨tl, hrest⟩ : ∃ tl, src.rest env = s :: tl := by
    cases hr : src.rest env with
    | nil => rw [hr] at hhead; cases hhead
    | cons x tl =>
        rw [hr] at hhead
        cases hhead
        exact ⟨tl, rfl⟩
  refine ⟨s, tl, hrest, hs, hlt, hat, ?_⟩
  cases hring : src.ring with
  | none => exact stepped_shared hring hat hrest
  | some r => exact stepped_ring h hring hat hrest hlost

end Feed

end SlickPerfmon
