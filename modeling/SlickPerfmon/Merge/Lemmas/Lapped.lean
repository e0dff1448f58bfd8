import SlickPerfmon.Merge.Lemmas.Loop
import SlickPerfmon.Merge.Lemmas.Lossy

/-!
# The merge loop over rings that may be lapped

A turn of the loop consumes of one ring and leaves the others alone, and it leaves less to do. So the loop ends, and
what it consumed of each ring adds up.
-/

namespace SlickPerfmon

open Library

/-! ## A turn -/

section Turn

variable {A : Type} [Accum A] (H : HeapLib) (env : World)

/-- What a source has left in its pass. -/
def MergeSource.ahead (src : MergeSource) : Nat := src.left (src.stop.getD 0)

/-- A source with a sample to hand over. -/
structure Lined (src : MergeSource) : Prop where
  head : ∃ s, src.data[src.pos]? = some s
  chunk : ∀ r, src.ring = some r → Chunk env r src
  stop : ∀ r, src.ring = some r → ∃ stop, src.stop = some stop

/-- What the turn of a source leaves. -/
structure Turn (m : Merger A) (src : MergeSource) (out : Merger A × MergeSource × Bool) (steps : List RingStep) :
    Prop where
  own : ∀ r, src.ring = some r →
    Consumed env r m out.1 steps (src.base + src.pos) (place r out) src.ahead (if out.2.2 then out.2.1.ahead else 0)
  others : ∀ r, src.ring ≠ some r → Untouched r m out.1 steps
  kept : OthersKept src.ring m out.1
  added : out.1.ringLost = m.ringLost + addedLost steps
  time : m.time ≤ out.1.time
  ring : out.2.1.ring = src.ring
  stop : out.2.1.stop = src.stop
  less : out.2.1.ahead < src.ahead
  more : out.2.2 = true → Lined env out.2.1
  heads : ∀ r, src.ring = some r → (∀ t t', t ≤ t' → env.head t r ≤ env.head t' r) →
    src.base + src.data.length ≤ env.head m.time r →
    out.2.1.base + out.2.1.data.length ≤ env.head out.1.time r ∧ place r out ≤ env.head out.1.time r

variable {H env} {m : Merger A} {src : MergeSource}

variable (H m) in
theorem nextStamp_lossy (watermark : UInt64) {r stop : Nat} (h : Chunk env r src)
    (hstop : src.stop = some stop ∨ src.stop = none ∧ src.data = [] ∧ env.head m.time r = stop) :
    ∃ steps, Advanced env r stop m src (m.nextStamp H env watermark src) steps ∧
      ∀ limit log, stop + 2 ≤ limit → Merger.nextStampWithin H env limit watermark limit m log src =
        some ((m.nextStamp H env watermark src).1, log ++ steps, (m.nextStamp H env watermark src).2) := by
  have hget := chunk_stop hstop
  unfold Merger.nextStamp
  simp only [h.ring, hget]
  obtain ⟨steps, hadv, hwithin⟩ := nextStampLoop_lossy (H := H) watermark (stop - src.base + 2) h hstop (by omega)
  exact ⟨steps, hadv, fun limit log hlimit => hwithin limit limit log (by omega) (by omega)⟩

/-- What `next_stamp` leaves of the staged stamps: no ring has a part in it. -/
structure Staying (m : Merger A) (src : MergeSource) (out : Merger A × MergeSource × Bool) : Prop where
  rings : ∀ r, Untouched r m out.1 []
  kept : OthersKept none m out.1
  added : out.1.ringLost = m.ringLost
  time : out.1.time = m.time
  source : ∃ pos, src.pos ≤ pos ∧ out.2.1 = { src with pos := pos }
  more : out.2.2 = true → ∃ s, out.2.1.data[out.2.1.pos]? = some s

variable (H env m src) in
theorem nextStamp_staged (watermark : UInt64) (hring : src.ring = none) :
    Staying m src (m.nextStamp H env watermark src) ∧
      ∀ limit log, 1 ≤ limit → Merger.nextStampWithin H env limit watermark limit m log src =
        some ((m.nextStamp H env watermark src).1, log, (m.nextStamp H env watermark src).2) := by
  obtain ⟨data, pos₀, base, st, ring⟩ := src
  obtain rfl : ring = none := hring
  obtain ⟨hpos, hfed, hc, hw, ht, hl⟩ := passValues_spec H none (data.drop pos₀) m pos₀
  obtain ⟨m₁, pos, hpass⟩ : ∃ m₁ pos, Merger.passValues H none (data.drop pos₀) m pos₀ = (m₁, pos) := ⟨_, _, rfl⟩
  rw [hpass] at hpos hfed hc hw ht hl
  simp only at hpos hc hw ht hl
  generalize hout : m.nextStamp H env watermark ⟨data, pos₀, base, st, none⟩ = out
  unfold Merger.nextStamp Merger.nextStampLoop at hout
  simp only [hpass] at hout
  have hrings : ∀ r, Untouched r m m₁ [] := fun r =>
    .still (by rw [hfed.ringSamples_source r, if_neg (Option.some_ne_none r).symm, List.append_nil])
  have hsource : ∃ p, pos₀ ≤ p ∧ (⟨data, pos, base, st, none⟩ : MergeSource) = ⟨data, p, base, st, none⟩ :=
    ⟨pos, by omega, rfl⟩
  cases hat : data[pos]? with
  | some s =>
      simp only [hat] at hout
      subst hout
      refine ⟨⟨hrings, fun r _ => ⟨by rw [hc], by rw [hw]⟩, hl, ht, hsource, fun _ => ⟨s, hat⟩⟩, fun limit log hlimit => ?_⟩
      obtain ⟨limit, rfl⟩ : ∃ n, limit = n + 1 := ⟨limit - 1, by omega⟩
      unfold Merger.nextStampWithin
      simp only [hpass, hat, handSteps, List.append_nil]
  | none =>
      simp only [hat] at hout
      subst hout
      refine ⟨⟨hrings, fun r _ => ⟨by rw [hc], by rw [hw]⟩, hl, ht, hsource, fun hno => by cases hno⟩,
        fun limit log hlimit => ?_⟩
      obtain ⟨limit, rfl⟩ : ∃ n, limit = n + 1 := ⟨limit - 1, by omega⟩
      unfold Merger.nextStampWithin
      simp only [hpass, hat, handSteps, List.append_nil]

/-- The staged stamps hand one over: no ring has a part in it. -/
theorem turn_staged {s : Sample} {out : Merger A × MergeSource × Bool} (hring : src.ring = none)
    (hstay : Staying (m.onEvent H none s) { src with pos := src.pos + 1 } out)
    (hin : src.pos < src.data.length) : Turn env m src out [] := by
  have hfed := fed_onEvent H m none s
  have hone : ∀ r, Untouched r m (m.onEvent H none s) [] := fun r =>
    .still (by rw [Fed.ringSamples_source (l := [s]) hfed r, if_neg (Option.some_ne_none r).symm, List.append_nil])
  obtain ⟨data, pos₀, base, st, ring⟩ := src
  obtain rfl : ring = none := hring
  obtain ⟨pos, hpos, hsrc⟩ := hstay.source
  simp only at hpos hsrc hin
  exact
    { own := fun _ hr => absurd hr.symm (Option.some_ne_none _)
      others := fun r _ => (hone r).trans (hstay.rings r)
      kept := hstay.kept
      added := hstay.added
      time := hstay.time.ge
      ring := by rw [hsrc]
      stop := by rw [hsrc]
      less := by
        rw [hsrc]
        simp only [MergeSource.ahead, MergeSource.left]
        omega
      more := fun hmore => by
        refine ⟨hstay.more hmore, fun r hr => ?_, fun r hr => ?_⟩
        · rw [hsrc] at hr
          cases hr
        · rw [hsrc] at hr
          cases hr
      heads := fun _ hr => absurd hr.symm (Option.some_ne_none _) }

variable (H m) in
/-- A source hands its sample over and moves on. -/
theorem feed_lossy (watermark : UInt64) (h : Lined env src) :
    ∃ steps, Turn env m src (m.feed H env watermark src) steps ∧
      ∀ limit log, src.stop.getD 0 + 2 ≤ limit → Merger.feedWithin H env limit watermark m log src =
        some ((m.feed H env watermark src).1, log ++ steps, (m.feed H env watermark src).2) := by
  obtain ⟨data, pos₀, base, st, ring⟩ := src
  obtain ⟨s, hat⟩ := h.head
  simp only at hat
  obtain ⟨hin, hs⟩ := List.getElem?_eq_some_iff.mp hat
  have hfed := fed_onEvent H m ring s
  unfold Merger.feed Merger.feedWithin
  simp only [hat]
  cases ring with
  | none =>
      obtain ⟨hstay, hwithin⟩ := nextStamp_staged H env (m.onEvent H none s)
        ⟨data, pos₀ + 1, base, st, none⟩ watermark rfl
      exact ⟨[], turn_staged rfl hstay hin,
        fun limit log hlimit => hwithin limit _ (by omega)⟩
  | some r =>
      obtain ⟨stop, hstop⟩ := h.stop r rfl
      obtain rfl : st = some stop := hstop
      have hchunk := h.chunk r rfl
      have hone : [s] <+: data.drop pos₀ := by
        rw [List.drop_eq_getElem_cons hin, hs]
        exact ⟨_, rfl⟩
      obtain ⟨hle, hown, hothers⟩ := hchunk.hands stop hone hfed
      simp only [List.length_singleton] at hle hown
      have hnext : Chunk env r ⟨data, pos₀ + 1, base, some stop, some r⟩ := ⟨rfl, hle, hchunk.data⟩
      obtain ⟨steps, hadv, hwithin⟩ := nextStamp_lossy H (m.onEvent H (some r) s) watermark hnext
        (Or.inl rfl)
      generalize (m.onEvent H (some r) s).nextStamp H env watermark ⟨data, pos₀ + 1, base, some stop, some r⟩ = out
        at hadv hwithin ⊢
      have hahead : out.2.1.ahead = out.2.1.left stop := by rw [MergeSource.ahead, hadv.stopped]; rfl
      refine ⟨handSteps (some r) (base + pos₀) 1 ++ steps, ?_, fun limit log hlimit => by
        rw [← List.append_assoc]
        exact hwithin limit _ hlimit⟩
      exact
        { own := fun r' hr => by
            cases hr
            rw [hahead]
            exact hown.trans hadv.consumed
          others := fun r' hr => by
            have hne : r' ≠ r := fun heq => hr (by rw [heq])
            exact (hothers r' hne).trans (hadv.others r' hne)
          kept := hadv.kept
          added := by
            rw [addedLost_append, addedLost_handSteps, Nat.zero_add]
            exact hadv.added
          time := hadv.time
          ring := hadv.chunk.ring
          stop := hadv.stopped
          less := by
            have hshrinks := hadv.shrinks
            rw [hahead]
            simp only [MergeSource.ahead, MergeSource.left, Option.getD_some] at hshrinks ⊢
            omega
          more := fun hmore => ⟨hadv.more hmore,
            fun r' hr => by
              rw [hadv.chunk.ring] at hr
              cases hr
              exact hadv.chunk,
            fun r' hr => ⟨stop, hadv.stopped⟩⟩
          heads := fun r' hr hmono hreach => by
            cases hr
            exact hadv.heads hmono hreach }

end Turn

/-! ## The loop -/

section Loop

variable {A : Type} [Accum A] {H : HeapLib} {env : World}

/-- Where ring `r` stands while the sources in `live` have more to hand over: at which index, with how much left, and
how far it has been read. -/
def Stands (m : Merger A) (live : MergeSource → Prop) (r index left reach : Nat) : Prop :=
  (∃ src, live src ∧ src.ring = some r ∧ index = src.base + src.pos ∧ left = src.ahead ∧
    reach = src.base + src.data.length) ∨
  ((∀ src, live src → src.ring ≠ some r) ∧ index = m.ringCursor r ∧ reach = m.ringCursor r)

omit [Accum A] in
theorem Stands.mono {m m' : Merger A} {live live' : MergeSource → Prop} {r a x e : Nat} (h : Stands m live r a x e)
    (hlive : ∀ src, src.ring = some r → (live' src ↔ live src)) (hcursor : m'.ringCursor r = m.ringCursor r) :
    Stands m' live' r a x e := by
  rcases h with ⟨src, hsrc, hr, hst⟩ | ⟨hnone, ha, he⟩
  · exact Or.inl ⟨src, (hlive src hr).mpr hsrc, hr, hst⟩
  · exact Or.inr ⟨fun src hsrc hr => hnone src ((hlive src hr).mp hsrc) hr, ha.trans hcursor.symm, he.trans hcursor.symm⟩

/-- A source the loop has not finished. -/
def InHeap (sources : List MergeSource) (heap : List Nat) (src : MergeSource) : Prop :=
  ∃ i ∈ heap, sources[i]? = some src

/-- Between two rounds. -/
structure LoopLined (env : World) (sources : List MergeSource) (heap : List Nat) : Prop where
  nodup : heap.Nodup
  lined : ∀ i ∈ heap, ∃ src, sources[i]? = some src ∧ Lined env src
  distinct : ∀ (i j : Nat) (a b : MergeSource), sources[i]? = some a → sources[j]? = some b → a.ring = b.ring → i = j

/-- What the merge of the sources in `live` leaves of every ring. -/
structure Drained (env : World) (m : Merger A) (live : MergeSource → Prop) (m' : Merger A) (steps : List RingStep) :
    Prop where
  rings : ∀ r a x e, Stands m live r a x e → Consumed env r m m' steps a (m'.ringCursor r) x 0
  heads : ∀ r a x e, Stands m live r a x e → (∀ t t', t ≤ t' → env.head t r ≤ env.head t' r) →
    e ≤ env.head m.time r → m'.ringCursor r ≤ env.head m'.time r
  added : m'.ringLost = m.ringLost + addedLost steps
  time : m.time ≤ m'.time

variable {m m₁ : Merger A} {sources : List MergeSource} {heap heap' front : List Nat} {i : Nat} {src src' : MergeSource}
  {more : Bool} {steps : List RingStep}

omit [Accum A] in
theorem LoopLined.turn (h : LoopLined env sources heap) (hpop : (front ++ [i]).Perm heap) (hi : sources[i]? = some src)
    (hturn : Turn env m src (m₁, src', more) steps) (hheap' : heap'.Perm (if more then front ++ [i] else front)) :
    LoopLined env (sources.set i src') heap' := by
  refine ⟨turn_nodup hpop hheap' h.nodup, fun j hj => ?_, distinct_set hi hturn.ring h.distinct⟩
  by_cases hij : i = j
  · subst hij
    exact ⟨src', List.getElem?_set_self (List.getElem?_eq_some_iff.mp hi).1,
      hturn.more ((mem_turn_self hpop hheap' h.nodup).mp hj)⟩
  · obtain ⟨a, ha, hlined⟩ := h.lined j (mem_of_turn hpop hheap' hj)
    exact ⟨a, by rw [List.getElem?_set_ne hij]; exact ha, hlined⟩

omit [Accum A] in
/-- The other sources are in the heap as they were. -/
theorem inHeap_turn (hpop : (front ++ [i]).Perm heap) (hi : sources[i]? = some src) (hring : src'.ring = src.ring)
    (hheap' : heap'.Perm (if more then front ++ [i] else front)) {b : MergeSource} (hne : b.ring ≠ src.ring) :
    InHeap (sources.set i src') heap' b ↔ InHeap sources heap b := by
  constructor
  · rintro ⟨j, hj, hb⟩
    have hij : i ≠ j := by
      rintro rfl
      rw [List.getElem?_set_self (List.getElem?_eq_some_iff.mp hi).1] at hb
      cases hb
      exact hne hring
    rw [List.getElem?_set_ne hij] at hb
    exact ⟨j, mem_of_turn hpop hheap' hj, hb⟩
  · rintro ⟨j, hj, hb⟩
    have hij : i ≠ j := by
      rintro rfl
      cases hi.symm.trans hb
      exact hne rfl
    exact ⟨j, mem_turn hpop hheap' hj hij.symm, by rw [List.getElem?_set_ne hij]; exact hb⟩

omit [Accum A] in
/-- Where the ring of the source whose turn it was stands after it. -/
theorem Turn.stands (h : LoopLined env sources heap) (hpop : (front ++ [i]).Perm heap) (hi : sources[i]? = some src)
    (hturn : Turn env m src (m₁, src', more) steps) (hheap' : heap'.Perm (if more then front ++ [i] else front))
    {r : Nat} (hr : src.ring = some r) :
    Stands m₁ (InHeap (sources.set i src') heap') r (place r (m₁, src', more)) (if more then src'.ahead else 0)
      (if more then src'.base + src'.data.length else m₁.ringCursor r) := by
  have hilt := (List.getElem?_eq_some_iff.mp hi).1
  have hring : src'.ring = src.ring := hturn.ring
  have hself := mem_turn_self hpop hheap' h.nodup
  cases more with
  | true => exact Or.inl ⟨src', ⟨i, hself.mpr rfl, List.getElem?_set_self hilt⟩, hring.trans hr, rfl, rfl, rfl⟩
  | false =>
      refine Or.inr ⟨?_, rfl, rfl⟩
      rintro b ⟨j, hj, hb⟩ hbr
      have hij : i ≠ j := by
        rintro rfl
        exact absurd (hself.mp hj) Bool.false_ne_true
      rw [List.getElem?_set_ne hij] at hb
      exact hij (h.distinct i j src b hi hb (hr.trans hbr.symm))

omit [Accum A] in
/-- What a turn does to where a ring stands. -/
theorem Stands.turn (h : LoopLined env sources heap) (hpop : (front ++ [i]).Perm heap) (hi : sources[i]? = some src)
    (hturn : Turn env m src (m₁, src', more) steps) (hheap' : heap'.Perm (if more then front ++ [i] else front))
    {r a x e : Nat} (hst : Stands m (InHeap sources heap) r a x e) :
    ∃ b y e', Consumed env r m m₁ steps a b x y ∧ Stands m₁ (InHeap (sources.set i src') heap') r b y e' ∧
      ((∀ t t', t ≤ t' → env.head t r ≤ env.head t' r) → e ≤ env.head m.time r → e' ≤ env.head m₁.time r) := by
  have hring : src'.ring = src.ring := hturn.ring
  by_cases hown : src.ring = some r
  · have hlive : InHeap sources heap src := ⟨i, hpop.mem_iff.mp (by simp), hi⟩
    rcases hst with ⟨b, ⟨j, hj, hb⟩, hbr, rfl, rfl, rfl⟩ | ⟨hnone, -⟩
    · obtain rfl := h.distinct j i b src hb hi (hbr.trans hown.symm)
      cases hi.symm.trans hb
      refine ⟨_, _, _, hturn.own r hown, Turn.stands h hpop hi hturn hheap' hown, fun hmono hle => ?_⟩
      obtain ⟨hchunk, hplace⟩ := hturn.heads r hown hmono hle
      cases more with
      | true => exact hchunk
      | false => exact hplace
    · exact absurd hown (hnone src hlive)
  · have hkept : m₁.ringCursor r = m.ringCursor r := (hturn.kept r hown).1
    refine ⟨a, x, e, (hturn.others r hown).consumed a x, hst.mono (fun b hbr => ?_) hkept,
      fun hmono hle => hle.trans (hmono _ _ hturn.time)⟩
    exact inHeap_turn hpop hi hring hheap' fun heq => hown (heq.symm.trans hbr)

omit [Accum A] in
/-- With nothing in the heap every ring is at its cursor. -/
theorem Drained.nil (m : Merger A) (sources : List MergeSource) : Drained env m (InHeap sources []) m [] where
  rings r a x e hst := by
    rcases hst with ⟨b, ⟨j, hj, -⟩, -⟩ | ⟨-, rfl, -⟩
    · cases hj
    · have hnone : Untouched r m m [] := .still rfl
      exact (hnone.consumed _ x).weaken (Nat.le_refl x) (Nat.zero_le x)
  heads r a x e hst hmono hle := by
    rcases hst with ⟨b, ⟨j, hj, -⟩, -⟩ | ⟨-, -, rfl⟩
    · cases hj
    · exact hle
  added := rfl
  time := Nat.le_refl _

omit [Accum A] in
/-- A turn, and then the rest. -/
theorem Drained.cons {m' : Merger A} {steps' : List RingStep} (h : LoopLined env sources heap)
    (hpop : (front ++ [i]).Perm heap) (hi : sources[i]? = some src)
    (hturn : Turn env m src (m₁, src', more) steps) (hheap' : heap'.Perm (if more then front ++ [i] else front))
    (hrest : Drained env m₁ (InHeap (sources.set i src') heap') m' steps') :
    Drained env m (InHeap sources heap) m' (steps ++ steps') where
  rings r a x e hst := by
    obtain ⟨b, y, e', hone, hst', -⟩ := Stands.turn h hpop hi hturn hheap' hst
    exact hone.trans (hrest.rings r b y e' hst')
  heads r a x e hst hmono hle := by
    obtain ⟨b, y, e', -, hst', hreach⟩ := Stands.turn h hpop hi hturn hheap' hst
    exact hrest.heads r b y e' hst' hmono (hreach hmono hle)
  added := by rw [hrest.added, hturn.added, addedLost_append, Nat.add_assoc]
  time := hturn.time.trans hrest.time

/-- What all sources have left. -/
def allAhead (sources : List MergeSource) : Nat := (sources.map MergeSource.ahead).sum

theorem Lined.ahead_pos (h : Lined env src) : 0 < src.ahead := by
  obtain ⟨s, hat⟩ := h.head
  have := (List.getElem?_eq_some_iff.mp hat).1
  unfold MergeSource.ahead MergeSource.left
  omega

/-- Every turn leaves less, so a loop with enough rounds empties the heap. -/
theorem LoopLined.heap_nil (h : LoopLined env sources heap) (hnone : allAhead sources = 0) : heap = [] := by
  refine heap_nil_of_sum MergeSource.ahead (fun i hi => ?_) hnone
  obtain ⟨src, hsrc, hlined⟩ := h.lined i hi
  exact ⟨src, hsrc, hlined.ahead_pos⟩

theorem mergeLoop_lossy (Hm : HeapLib) (watermark : UInt64) (fuel k : Nat) (m : Merger A)
    (h : LoopLined env sources heap) (hfuel : allAhead sources ≤ fuel) :
    ∃ steps, Drained env m (InHeap sources heap)
        (Merger.mergeLoop H env Hm watermark fuel k m sources heap).1 steps ∧
      ∀ limit rounds log, (∀ src ∈ sources, src.stop.getD 0 + 2 ≤ limit) → allAhead sources + 1 ≤ rounds →
        Merger.mergeLoopWithin H env Hm limit watermark rounds k m log sources heap =
          some ((Merger.mergeLoop H env Hm watermark fuel k m sources heap).1, log ++ steps,
            (Merger.mergeLoop H env Hm watermark fuel k m sources heap).2) := by
  induction fuel generalizing k m sources heap with
  | zero =>
      obtain rfl := h.heap_nil (Nat.le_zero.mp hfuel)
      refine ⟨[], Drained.nil m sources, fun limit rounds log _ hrounds => ?_⟩
      obtain ⟨rounds, rfl⟩ : ∃ n, rounds = n + 1 := ⟨rounds - 1, by omega⟩
      rw [List.append_nil]
      rfl
  | succ fuel ih =>
      by_cases hne : heap = []
      · subst hne
        rw [mergeLoop_nil]
        refine ⟨[], Drained.nil m sources, fun limit rounds log _ hrounds => ?_⟩
        obtain ⟨rounds, rfl⟩ : ∃ n, rounds = n + 1 := ⟨rounds - 1, by omega⟩
        rw [List.append_nil]
        rfl
      · have hperm : (Merger.preferCleanTie m.pairer sources
            (Hm.popHeap (Merger.later sources) (2 * k + 1) heap)).Perm heap :=
          (preferCleanTie_perm sources m.pairer _).trans (Hm.popHeap_perm _ (later_strictWeak sources) heap)
        obtain ⟨front, i, heq⟩ : ∃ front i, Merger.preferCleanTie m.pairer sources
            (Hm.popHeap (Merger.later sources) (2 * k + 1) heap) = front ++ [i] :=
          ⟨_, _, (List.dropLast_append_getLast fun hnil => hne (List.nil_perm.mp (hnil ▸ hperm))).symm⟩
        rw [heq] at hperm
        obtain ⟨src, hi, hlined⟩ := h.lined i (hperm.mem_iff.mp (by simp))
        obtain ⟨steps, hturn, hfeed⟩ := feed_lossy H m watermark hlined
        rw [Merger.mergeLoop]
        simp only [heq, List.getLast?_concat, List.dropLast_concat, hi]
        generalize m.feed H env watermark src = out at hturn hfeed ⊢
        obtain ⟨m₁, src', more⟩ := out
        have hheap' : (if more then Hm.pushHeap (Merger.later (sources.set i src')) (2 * k + 2) (front ++ [i])
            else front).Perm (if more then front ++ [i] else front) := by
          cases more with
          | true => exact Hm.perm (later_strictWeak _) _ _
          | false => exact List.Perm.refl _
        have hless : src'.ahead < src.ahead := hturn.less
        have hsum : allAhead (sources.set i src') + src.ahead = allAhead sources + src'.ahead :=
          sum_map_set MergeSource.ahead hi src'
        obtain ⟨steps', hrest, hwithin⟩ := ih (k + 1) m₁ (h.turn hperm hi hturn hheap') (by omega)
        refine ⟨steps ++ steps', Drained.cons h hperm hi hturn hheap' hrest, fun limit rounds log hlimit hrounds => ?_⟩
        obtain ⟨rounds, rfl⟩ : ∃ n, rounds = n + 1 := ⟨rounds - 1, by omega⟩
        rw [Merger.mergeLoopWithin]
        simp only [heq, List.getLast?_concat, List.dropLast_concat, hi,
          hfeed limit log (hlimit src (List.mem_of_getElem? hi))]
        rw [hwithin limit rounds (log ++ steps) ?_ (by omega), List.append_assoc]
        intro b hb
        rcases List.mem_or_eq_of_mem_set hb with hb | rfl
        · exact hlimit b hb
        · have hstop : b.stop = src.stop := hturn.stop
          rw [hstop]
          exact hlimit src (List.mem_of_getElem? hi)

/-- With one source the loop over the heap does the same, and finds its heap empty in a further round. -/
theorem drainOnlyWithin_eq (Hm : HeapLib) (limit : Nat) (watermark : UInt64) (rounds k : Nat) (m : Merger A)
    (log : List RingStep) (src : MergeSource) :
    Merger.mergeLoopWithin H env Hm limit watermark (rounds + 1) k m log [src] [0] =
      (Merger.drainOnlyWithin H env limit watermark rounds m log src).map fun out => (out.1, out.2.1, [out.2.2]) := by
  have hpop : ∀ (k : Nat) (src : MergeSource), Hm.popHeap (Merger.later [src]) (2 * k + 1) [0] = [0] := fun k src =>
    List.perm_singleton.mp (Hm.popHeap_perm (2 * k + 1) (later_strictWeak [src]) [0])
  induction rounds generalizing k m log src with
  | zero =>
      rw [Merger.mergeLoopWithin, hpop, Merger.drainOnlyWithin]
      simp only [Merger.preferCleanTie, List.getLast?_singleton, List.dropLast_singleton, List.getElem?_cons_zero,
        List.set_cons_zero]
      cases Merger.feedWithin H env limit watermark m log src with
      | none => rfl
      | some out => rfl
  | succ rounds ih =>
      rw [Merger.mergeLoopWithin, hpop, Merger.drainOnlyWithin]
      simp only [Merger.preferCleanTie, List.getLast?_singleton, List.dropLast_singleton, List.getElem?_cons_zero,
        List.set_cons_zero]
      cases Merger.feedWithin H env limit watermark m log src with
      | none => rfl
      | some out =>
          obtain ⟨m₁, log₁, src', more⟩ := out
          cases more with
          | true =>
              have hpush : Hm.pushHeap (Merger.later [src']) (2 * k + 2) [0] = [0] :=
                List.perm_singleton.mp (Hm.perm (later_strictWeak [src']) (2 * k + 2) [0])
              simp only [if_true, hpush]
              exact ih (k + 1) m₁ log₁ src'
          | false => rfl

/-- However many sources a pass has, its loop ends as the one over the heap does. -/
theorem mergeSourcesWithin_eq (Hm : HeapLib) (limit : Nat) (watermark : UInt64) (m : Merger A) (log : List RingStep)
    (sources : List MergeSource) {out : Merger A × List RingStep × List MergeSource}
    (hout : ∀ rounds, limit ≤ rounds → Merger.mergeLoopWithin H env Hm limit watermark rounds 0 m log sources
      (Hm.makeHeap (Merger.later sources) 0 (List.range sources.length)) = some out) :
    Merger.mergeSourcesWithin H env Hm limit watermark m log sources = some out := by
  match sources with
  | [] =>
      have hmake : Hm.makeHeap (Merger.later []) 0 (List.range ([] : List MergeSource).length) = [] :=
        List.perm_nil.mp (Hm.perm (later_strictWeak []) 0 [])
      have hlast := hout (limit + 1) (Nat.le_succ limit)
      rw [hmake] at hlast
      exact hlast
  | [src] =>
      have hmake : Hm.makeHeap (Merger.later [src]) 0 (List.range [src].length) = [0] :=
        List.perm_singleton.mp (Hm.perm (later_strictWeak [src]) 0 [0])
      have hlast := hout (limit + 1) (Nat.le_succ limit)
      rw [hmake, drainOnlyWithin_eq] at hlast
      obtain ⟨last, hdrain, rfl⟩ := Option.map_eq_some_iff.mp hlast
      unfold Merger.mergeSourcesWithin
      simp only [hdrain]
  | a :: b :: rest => exact hout limit (Nat.le_refl limit)

theorem ahead_le_remaining (src : MergeSource) (hpos : src.pos ≤ src.data.length) : src.ahead ≤ Merger.remaining src := by
  unfold MergeSource.ahead MergeSource.left Merger.remaining
  omega

/-- All sources of a pass, one or many. -/
theorem mergeSources_lossy (Hm : HeapLib) (watermark : UInt64) (m : Merger A) (hlined : ∀ src ∈ sources, Lined env src)
    (hdistinct : ∀ (i j : Nat) (a b : MergeSource), sources[i]? = some a → sources[j]? = some b →
      a.ring = b.ring → i = j) :
    ∃ steps, Drained env m (· ∈ sources) (m.mergeSources H env Hm watermark sources).1 steps ∧
      ∃ n, ∀ limit log, n ≤ limit → Merger.mergeSourcesWithin H env Hm limit watermark m log sources =
        some ((m.mergeSources H env Hm watermark sources).1, log ++ steps,
          (m.mergeSources H env Hm watermark sources).2) := by
  have hperm := Hm.perm (later_strictWeak sources) 0 (List.range sources.length)
  have hlive : InHeap sources (Hm.makeHeap (Merger.later sources) 0 (List.range sources.length)) = (· ∈ sources) := by
    funext src
    refine propext ⟨fun ⟨i, _, hi⟩ => List.mem_of_getElem? hi, fun hmem => ?_⟩
    obtain ⟨i, hi⟩ := List.mem_iff_getElem?.mp hmem
    exact ⟨i, hperm.mem_iff.mpr (List.mem_range.mpr (List.getElem?_eq_some_iff.mp hi).1), hi⟩
  have hstart : LoopLined env sources (Hm.makeHeap (Merger.later sources) 0 (List.range sources.length)) :=
    { nodup := hperm.nodup_iff.mpr List.nodup_range
      lined := fun i hi => by
        have hlt := List.mem_range.mp (hperm.mem_iff.mp hi)
        exact ⟨_, List.getElem?_eq_getElem hlt, hlined _ (List.getElem_mem hlt)⟩
      distinct := hdistinct }
  have hfuel : allAhead sources ≤ (sources.map Merger.remaining).sum := by
    refine List.sum_le_sum fun src hsrc => ?_
    obtain ⟨s, hat⟩ := (hlined src hsrc).head
    exact ahead_le_remaining src (List.getElem?_eq_some_iff.mp hat).1.le
  have hstops : ∀ src ∈ sources, src.stop.getD 0 + 2 ≤ (sources.map fun src => src.stop.getD 0).sum + 2 :=
    fun src hsrc => Nat.add_le_add_right (List.single_le_sum (fun _ _ => Nat.zero_le _) _
      (List.mem_map_of_mem (f := fun src : MergeSource => src.stop.getD 0) hsrc)) 2
  obtain ⟨steps, hdrained, hwithin⟩ := mergeLoop_lossy (H := H) Hm watermark _ 0 m hstart hfuel
  rw [hlive] at hdrained
  rw [mergeSources_eq_mergeLoop]
  refine ⟨steps, hdrained, (sources.map fun src => src.stop.getD 0).sum + 2 + allAhead sources, fun limit log hlimit => ?_⟩
  have hlimit' : ∀ src ∈ sources, src.stop.getD 0 + 2 ≤ limit := fun src hsrc => by
    have := hstops src hsrc
    omega
  exact mergeSourcesWithin_eq Hm limit watermark m log sources fun rounds hrounds =>
    hwithin limit rounds log hlimit' (by omega)

end Loop

end SlickPerfmon
