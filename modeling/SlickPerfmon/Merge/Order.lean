import SlickPerfmon.Merge.Lemmas.Pass
import SlickPerfmon.Stats.Accumulator

/-!
# The order of the merge

Over any sequence of passes, whatever their watermarks, the stamps reach the pairer in timestamp order, each ring's
samples in its own order and once.
-/

namespace SlickPerfmon

open Library

/-! ## Runs of passes -/

/-- A pass, or whatever else the collector does to its pairer in between: a flush, a sweep. -/
inductive MergeCall (A : Type) : Type 1
  | pass (watermark : UInt64) (Hm : HeapLib)
  | report (P : Pairer A)

section Runs

variable {A : Type} [Accum A] (H : HeapLib) (env : World)

def Merger.call (m : Merger A) : MergeCall A → Merger A
  | .pass watermark Hm => m.mergePass H env Hm watermark
  | .report P => { m with pairer := P }

def Merger.calls (m : Merger A) (cs : List (MergeCall A)) : Merger A := cs.foldl (Merger.call H env) m

/-- What was handed to the pairer so far, and from which ring. -/
def Merger.delivered (m : Merger A) : List (Option Nat × Sample) := m.handed.map fun h => (h.ring, h.sample)

omit [Accum A] in
/-- A collector that has just taken up its rings. -/
structure Started (m : Merger A) : Prop where
  stage : m.sharedStage = []
  waits : ∀ r, m.ringWaitTs r = 0
  cursors : ∀ r, r < env.rings → m.ringCursor r ≤ env.head m.time r
  fresh : m.handed = [] ∧ m.taken = [] ∧ m.skipped = []

/-- A pass that finds every stamp below its watermark published, in the shared ring with nothing unpublished in front
of it, and at none of whose reads a ring was lapped. `m₀` is the collector as it started. -/
structure OnTime (m₀ m : Merger A) (watermark : UInt64) (Hm : HeapLib) : Prop where
  positive : 0 < watermark
  rings : ∀ r, r < env.rings → ∀ i t, m₀.ringCursor r ≤ i → i < env.head t r →
    (env.log r i).isStamp = true → (env.log r i).timestamp < watermark → i < env.head m.time r
  shared : ∀ k t, env.Published t k → (env.slot k).isStamp = true → (env.slot k).timestamp < watermark →
    ∀ j, m.cursor ≤ j → j ≤ k → env.Published m.time j
  room : ∀ k, env.Published m.time k → k < m.cursor + env.queueCapacity
  unlapped : Unlapped env m (m.mergePass H env Hm watermark)

/-- Every pass of a run is on time. -/
def AllOnTime (m₀ : Merger A) : Merger A → List (MergeCall A) → Prop
  | _, [] => True
  | m, .pass watermark Hm :: cs =>
      OnTime H env m₀ m watermark Hm ∧ AllOnTime m₀ (m.mergePass H env Hm watermark) cs
  | m, .report P :: cs => AllOnTime m₀ { m with pairer := P } cs

/-- What a run that started at `m₀` has delivered: the stamps are in timestamp order; of each ring, exactly its
samples up to the cursor, in their order; of the shared ring the slots taken, each once, but for the stamps still
staged; and the slots that were not taken were stepped over while they were unpublished. -/
structure Delivered (m₀ m : Merger A) : Prop where
  order : InOrder m.delivered
  rings : ∀ r, r < env.rings → m.delivered.filter (fun x => x.1 = some r) =
    (logFrom (env.log r) (m₀.ringCursor r) (m.ringCursor r)).map fun s => (some r, s)
  sources : ∀ x ∈ m.delivered, ∀ r, x.1 = some r → r < env.rings
  shared : (((m.delivered.filter fun x => x.1 = none).map Prod.snd) ++ m.sharedStage).Perm (m.taken.map env.slot)
  once : m.taken.Pairwise (· < ·)
  skipped : ∀ k ∈ m.skipped, ∃ t, m₀.time ≤ t ∧ t ≤ m.time ∧ ¬env.Published t k

/-- What a pass with this watermark from `m` to `m'` has to have handed over: of each ring what was published when it
started, up to the first stamp at or past the watermark; of the shared ring the slots published then, up to the first
one that was not, but for stamps at or past the watermark and for slots an earlier pass had stepped over. -/
structure Complete (m₀ m m' : Merger A) (watermark : UInt64) : Prop where
  rings : ∀ r, r < env.rings → ∀ i, m₀.ringCursor r ≤ i → i < env.head m.time r →
    (∀ j, m₀.ringCursor r ≤ j → j ≤ i → (env.log r j).isStamp = true → (env.log r j).timestamp < watermark) →
    i < m'.ringCursor r
  stamps : ∀ r, r < env.rings → ∀ i, m₀.ringCursor r ≤ i → i < env.head m.time r →
    (env.log r i).isStamp = true → (env.log r i).timestamp < watermark → i < m'.ringCursor r
  shared : ∀ k, m₀.cursor ≤ k → (∀ j, m.cursor ≤ j → j ≤ k → env.Published m.time j) → k ∈ m'.taken ∨ k ∈ m.skipped
  staged : ∀ s ∈ m'.sharedStage, s.isStamp = true ∧ watermark ≤ s.timestamp

/-! ## Between two passes -/

omit [Accum A] in
/-- What a pass on time finds published. -/
structure Timely (m₀ m : Merger A) (watermark : UInt64) : Prop where
  rings : ∀ r, r < env.rings → ∀ i t, m₀.ringCursor r ≤ i → i < env.head t r →
    (env.log r i).isStamp = true → (env.log r i).timestamp < watermark → i < env.head m.time r
  shared : ∀ k t, env.Published t k → (env.slot k).isStamp = true → (env.slot k).timestamp < watermark →
    ∀ j, m.cursor ≤ j → j ≤ k → env.Published m.time j
  room : ∀ k, env.Published m.time k → k < m.cursor + env.queueCapacity

omit [Accum A] in
/-- Between two passes, with `W` the highest watermark so far: everything delivered is below it and everything still to
come is not. -/
structure Paused (m₀ : Merger A) (W : UInt64) (m : Merger A) : Prop where
  delivered : Delivered env m₀ m
  staged : Staged m.sharedStage
  cursors : ∀ r, r < env.rings → m₀.ringCursor r ≤ m.ringCursor r ∧ m.ringCursor r ≤ env.head m.time r
  waiting : ∀ r, r < env.rings → Waiting env m r
  slots : m₀.cursor ≤ m.cursor ∧ (∀ k ∈ m.taken, k < m.cursor) ∧
    ∀ k, m₀.cursor ≤ k → k < m.cursor → k ∈ m.taken ∨ k ∈ m.skipped
  time : m₀.time ≤ m.time
  below : ∀ x ∈ m.delivered, x.2.isStamp = true → x.2.timestamp < W
  ringsBeyond : ∀ r, r < env.rings → ∀ i t, m.ringCursor r ≤ i → i < env.head t r →
    (env.log r i).isStamp = true → W ≤ (env.log r i).timestamp
  stageBeyond : ∀ s ∈ m.sharedStage, W ≤ s.timestamp
  slotsBeyond : ∀ k t, m.cursor ≤ k → env.Published t k → (env.slot k).isStamp = true → W ≤ (env.slot k).timestamp

variable {H env} {m₀ m m' : Merger A} {W watermark : UInt64} {trace : List (Option Nat × Sample)} {n : Nat}

omit [Accum A] in
theorem Started.paused (h : Started env m₀) : Paused env m₀ 0 m₀ := by
  have hnil : m₀.delivered = [] := by rw [Merger.delivered, h.fresh.1]; rfl
  exact
    { delivered :=
        { order := by rw [hnil]; exact List.Pairwise.nil
          rings := fun r _ => by rw [hnil, logFrom_eq_nil (Nat.le_refl _)]; rfl
          sources := fun x hx => by rw [hnil] at hx; cases hx
          shared := by rw [hnil, h.stage, h.fresh.2.1]; exact List.Perm.nil
          once := by rw [h.fresh.2.1]; exact List.Pairwise.nil
          skipped := fun k hk => by rw [h.fresh.2.2] at hk; cases hk }
      staged := by rw [h.stage]; exact ⟨nofun, List.Pairwise.nil⟩
      cursors := fun r hr => ⟨Nat.le_refl _, h.cursors r hr⟩
      waiting := fun r _ => Or.inl (h.waits r)
      slots := ⟨Nat.le_refl _, ⟨(fun k hk => by rw [h.fresh.2.1] at hk; cases hk), fun k hk hlt => by omega⟩⟩
      time := Nat.le_refl _
      below := fun x hx => by rw [hnil] at hx; cases hx
      ringsBeyond := fun _ _ _ _ _ _ _ => UInt64.zero_le
      stageBeyond := fun _ _ => UInt64.zero_le
      slotsBeyond := fun _ _ _ _ _ => UInt64.zero_le }

theorem HandsOver.delivered (h : HandsOver H m m' trace) : m'.delivered = m.delivered ++ trace := by
  rw [Merger.delivered, h.handed, List.map_append, handedBy_map]
  rfl

omit [Accum A] in
/-- Two stamps of an ascending log. -/
theorem Ascending.at {log : Nat → Sample} {a b i j : Nat} (h : Ascending (logFrom log a b)) (hai : a ≤ i) (hij : i ≤ j)
    (hjb : j < b) (hi : (log i).isStamp = true) (hj : (log j).isStamp = true) : (log i).timestamp ≤ (log j).timestamp := by
  rcases Nat.eq_or_lt_of_le hij with rfl | hlt
  · exact UInt64.le_refl _
  · have hst := h.stretch hai (Nat.le_refl b)
    rw [logFrom_cons (by omega)] at hst
    exact hst.le hi (mem_logFrom.mpr ⟨j, hlt, hjb, rfl⟩) hj

/-- A stamp a pass hands over is not below the watermarks before it. -/
theorem Passed.beyond (h : Passed H env watermark m m' trace n) (hp : Paused env m₀ W m)
    {x : Option Nat × Sample} (hx : x ∈ trace) (hstamp : x.2.isStamp = true) : W ≤ x.2.timestamp := by
  obtain ⟨ring, s⟩ := x
  cases ring with
  | some r =>
      have hr := h.sources _ hx r rfl
      have hmem : ((some r, s) : Option Nat × Sample) ∈ trace.filter fun x => x.1 = some r :=
        List.mem_filter.mpr ⟨hx, by simp⟩
      rw [(h.rings r hr).handed] at hmem
      obtain ⟨y, hy, hys⟩ := List.mem_map.mp hmem
      cases hys
      obtain ⟨i, hi, hlt, rfl⟩ := mem_logFrom.mp hy
      exact hp.ringsBeyond r hr i _ hi (hlt.trans_le (h.rings r hr).within) hstamp
  | none =>
      have hmem : s ∈ ((trace.filter fun x => x.1 = none).map Prod.snd) ++ m'.sharedStage :=
        List.mem_append_left _ (List.mem_map.mpr ⟨_, List.mem_filter.mpr ⟨hx, by simp⟩, rfl⟩)
      rcases List.mem_append.mp (h.shared.balance.mem_iff.mp hmem) with hs | hs
      · exact hp.stageBeyond s hs
      · obtain ⟨k, hk, hlt, rfl⟩ := mem_logFrom.mp hs
        exact hp.slotsBeyond k _ hk (h.shared.published k hk hlt) hstamp

/-- A pass goes on delivering in order. -/
theorem Passed.delivered (h : Passed H env watermark m m' trace n) (hp : Paused env m₀ W m) : Delivered env m₀ m' where
  order := by
    rw [h.hands.delivered]
    unfold InOrder
    rw [List.filter_append]
    refine List.pairwise_append.mpr ⟨hp.delivered.order, h.order, fun x hx y hy => ?_⟩
    obtain ⟨hx, hxs⟩ := List.mem_filter.mp hx
    obtain ⟨hy, hys⟩ := List.mem_filter.mp hy
    exact UInt64.le_trans (UInt64.le_of_lt (hp.below x hx hxs)) (h.beyond hp hy hys)
  rings r hr := by
    rw [h.hands.delivered, List.filter_append, hp.delivered.rings r hr, (h.rings r hr).handed, ← List.map_append,
      logFrom_append (hp.cursors r hr).1 (h.rings r hr).moved]
  sources x hx := by
    rw [h.hands.delivered] at hx
    rcases List.mem_append.mp hx with hx | hx
    · exact hp.delivered.sources x hx
    · exact h.sources x hx
  shared := by
    rw [h.hands.delivered, List.filter_append, List.map_append, List.append_assoc, h.shared.taken, List.map_append,
      logFrom_range']
    refine (h.shared.balance.append_left _).trans ?_
    rw [← List.append_assoc]
    exact hp.delivered.shared.append_right _
  once := by
    rw [h.shared.taken]
    refine List.pairwise_append.mpr ⟨hp.delivered.once, List.pairwise_lt_range', fun a ha b hb => ?_⟩
    exact (hp.slots.2.1 a ha).trans_le (List.mem_range'_1.mp hb).1
  skipped k hk := by
    have hold : k ∈ m.skipped → ∃ t, m₀.time ≤ t ∧ t ≤ m'.time ∧ ¬env.Published t k := fun hk => by
      obtain ⟨t, h₀, h₁, hpub⟩ := hp.delivered.skipped k hk
      exact ⟨t, h₀, h₁.trans h.time, hpub⟩
    rcases h.shared.cursor with ⟨-, hskip⟩ | ⟨-, -, hskip, hpub⟩
    · rw [hskip] at hk
      exact hold hk
    · rw [hskip] at hk
      rcases List.mem_append.mp hk with hk | hk
      · exact hold hk
      · rw [List.mem_singleton.mp hk]
        exact ⟨m.time, hp.time, h.time, hpub⟩

theorem Passed.cursor_le (h : Passed H env watermark m m' trace n) : m.cursor + n ≤ m'.cursor := by
  rcases h.shared.cursor with ⟨hc, -⟩ | ⟨hn, hc, -⟩ <;> omega

/-- What a pass on time has not taken of a ring is at or past its watermark. -/
theorem Passed.ringsBeyond (h : Passed H env watermark m m' trace n) (hp : Paused env m₀ W m) {r : Nat}
    (hr : r < env.rings) (hasc : ∀ t, Ascending (logFrom (env.log r) (m₀.ringCursor r) (env.head t r)))
    {i t : Nat} (hi : m'.ringCursor r ≤ i) (hlt : i < env.head t r) (hhead : i < env.head m.time r)
    (hstamp : (env.log r i).isStamp = true) : watermark ≤ (env.log r i).timestamp := by
  rcases (h.rings r hr).reached with hreach | ⟨-, hs, hle⟩
  · omega
  · exact UInt64.le_trans hle ((hasc t).at ((hp.cursors r hr).1.trans (h.rings r hr).moved) hi hlt hs hstamp)

/-- A pass keeps everything delivered below everything still to come. `W'` is the higher of the two watermarks. -/
theorem Passed.paused (h : Passed H env watermark m m' trace n) (hp : Paused env m₀ W m) {W' : UInt64}
    (hW : W ≤ W' ∧ watermark ≤ W') (hleast : W' = W ∨ W' = watermark)
    (hasc : ∀ r, r < env.rings → ∀ t, Ascending (logFrom (env.log r) (m₀.ringCursor r) (env.head t r)))
    (hon : Timely env m₀ m watermark) : Paused env m₀ W' m' := by
  have hmax : ∀ {ts : UInt64}, W ≤ ts → watermark ≤ ts → W' ≤ ts := fun h₁ h₂ => by
    rcases hleast with rfl | rfl
    · exact h₁
    · exact h₂
  have hcursor := h.cursor_le
  refine
    { delivered := h.delivered hp
      staged := h.shared.staged
      cursors := fun r hr => ⟨(hp.cursors r hr).1.trans (h.rings r hr).moved, (h.rings r hr).within⟩
      waiting := fun r hr => (h.rings r hr).waiting
      slots := ⟨by have := hp.slots.1; omega, ⟨fun k hk => ?_, fun k hk hlt => ?_⟩⟩
      time := hp.time.trans h.time
      below := fun x hx hstamp => ?_
      ringsBeyond := fun r hr i t hi hlt hstamp => ?_
      stageBeyond := fun s hs => ?_
      slotsBeyond := fun k t hk hpub hstamp => ?_ }
  · rw [h.shared.taken] at hk
    rcases List.mem_append.mp hk with hk | hk
    · have := hp.slots.2.1 k hk
      omega
    · have := (List.mem_range'_1.mp hk).2
      omega
  · by_cases hold : k < m.cursor
    · refine (hp.slots.2.2 k hk hold).imp (fun hk => ?_) fun hk => ?_
      · rw [h.shared.taken]
        exact List.mem_append_left _ hk
      · rcases h.shared.cursor with ⟨-, hs⟩ | ⟨-, -, hs, -⟩ <;> rw [hs]
        · exact hk
        · exact List.mem_append_left _ hk
    · rcases h.shared.cursor with ⟨hc, -⟩ | ⟨-, hc, hs, -⟩
      · left
        rw [h.shared.taken]
        exact List.mem_append_right _ (List.mem_range'_1.mpr ⟨by omega, by omega⟩)
      · right
        rw [hs, show k = m.cursor by omega]
        exact List.mem_append_right _ (List.mem_singleton_self _)
  · rw [h.hands.delivered] at hx
    rcases List.mem_append.mp hx with hx | hx
    · exact UInt64.lt_of_lt_of_le (hp.below x hx hstamp) hW.1
    · exact UInt64.lt_of_lt_of_le (h.early x hx hstamp) hW.2
  · have hold := hp.ringsBeyond r hr i t ((h.rings r hr).moved.trans hi) hlt hstamp
    refine hmax hold (UInt64.not_lt.mp fun hearly => ?_)
    have hhead := hon.rings r hr i t ((hp.cursors r hr).1.trans ((h.rings r hr).moved.trans hi)) hlt hstamp hearly
    exact UInt64.not_lt.mpr (h.ringsBeyond hp hr (hasc r hr) hi hlt hhead hstamp) hearly
  · have hmem := h.shared.balance.mem_iff.mp (List.mem_append_right _ hs)
    refine hmax ?_ (h.shared.late s hs)
    rcases List.mem_append.mp hmem with hmem | hmem
    · exact hp.stageBeyond s hmem
    · obtain ⟨k, hk, hlt, rfl⟩ := mem_logFrom.mp hmem
      exact hp.slotsBeyond k _ hk (h.shared.published k hk hlt) (h.shared.staged.stamps _ hs)
  · have hold := hp.slotsBeyond k t (by omega) hpub hstamp
    refine hmax hold (UInt64.not_lt.mp fun hearly => ?_)
    have hall := hon.shared k t hpub hstamp hearly
    have := h.shared.complete k (by omega) (hon.room k (hall k (by omega) (Nat.le_refl _))) hall
    omega

/-- What a pass on time has handed over. -/
theorem Passed.complete (h : Passed H env watermark m m' trace n) (hp : Paused env m₀ W m)
    (hasc : ∀ r, r < env.rings → ∀ t, Ascending (logFrom (env.log r) (m₀.ringCursor r) (env.head t r)))
    (hon : Timely env m₀ m watermark) : Complete env m₀ m m' watermark := by
  refine
    { rings := fun r hr i hi hlt hdue => ?_
      stamps := fun r hr i hi hlt hstamp hearly => ?_
      shared := fun k hk hall => ?_
      staged := fun s hs => ⟨h.shared.staged.stamps s hs, h.shared.late s hs⟩ }
  · by_contra hnot
    have hle : m'.ringCursor r ≤ i := Nat.le_of_not_lt hnot
    rcases (h.rings r hr).reached with hreach | ⟨-, hs, hlate⟩
    · omega
    · have := hdue (m'.ringCursor r) ((hp.cursors r hr).1.trans (h.rings r hr).moved) hle hs
      exact UInt64.not_lt.mpr hlate this
  · by_contra hnot
    exact UInt64.not_lt.mpr (h.ringsBeyond hp hr (hasc r hr) (Nat.le_of_not_lt hnot) hlt hlt hstamp) hearly
  · by_cases hold : k < m.cursor
    · refine (hp.slots.2.2 k hk hold).imp_left fun hk => ?_
      rw [h.shared.taken]
      exact List.mem_append_left _ hk
    · left
      have := h.shared.complete k (by omega) (hon.room k (hall k (by omega) (Nat.le_refl _))) hall
      rw [h.shared.taken]
      exact List.mem_append_right _ (List.mem_range'_1.mpr ⟨by omega, this⟩)

/-- A pass that was on time leaves the collector paused again. -/
theorem Passed.next (h : Passed H env watermark m m' trace n) (hp : Paused env m₀ W m)
    (hasc : ∀ r, r < env.rings → ∀ t, Ascending (logFrom (env.log r) (m₀.ringCursor r) (env.head t r)))
    (hon : Timely env m₀ m watermark) : (∃ W', Paused env m₀ W' m') ∧ Complete env m₀ m m' watermark := by
  refine ⟨?_, h.complete hp hasc hon⟩
  rcases UInt64.le_total W watermark with hle | hle
  · exact ⟨watermark, h.paused hp ⟨hle, UInt64.le_refl _⟩ (Or.inr rfl) hasc hon⟩
  · exact ⟨W, h.paused hp ⟨UInt64.le_refl _, hle⟩ (Or.inl rfl) hasc hon⟩

/-- What a pass does from a paused collector, if no ring is lapped in it. -/
theorem Paused.passed (hsound : env.Sound) (hrings : env.rings ≠ 0) (hp : Paused env m₀ W m) {Hm : HeapLib}
    (hasc : ∀ r, r < env.rings → ∀ t, Ascending (logFrom (env.log r) (m₀.ringCursor r) (env.head t r)))
    (hpos : 0 < watermark) (hun : Unlapped env m (m.mergePass H env Hm watermark)) :
    ∃ trace n, Passed H env watermark m (m.mergePass H env Hm watermark) trace n :=
  mergePass_spec Hm hsound hrings hpos hp.staged (fun r hr => (hp.cursors r hr).2) hp.waiting
    (fun r hr t => (hasc r hr t).stretch (hp.cursors r hr).1 (Nat.le_refl _))
    ((readsOn_mergePass H env Hm watermark m).intact hun)

/-- A pass on time from a paused collector. -/
theorem Paused.pass (hsound : env.Sound) (hrings : env.rings ≠ 0) (hp : Paused env m₀ W m) {Hm : HeapLib}
    (hasc : ∀ r, r < env.rings → ∀ t, Ascending (logFrom (env.log r) (m₀.ringCursor r) (env.head t r)))
    (hon : OnTime H env m₀ m watermark Hm) :
    (∃ W', Paused env m₀ W' (m.mergePass H env Hm watermark)) ∧
      Complete env m₀ m (m.mergePass H env Hm watermark) watermark := by
  obtain ⟨trace, n, h⟩ := hp.passed hsound hrings hasc hon.positive hon.unlapped
  exact h.next hp hasc ⟨hon.rings, hon.shared, hon.room⟩

omit [Accum A] in
theorem Paused.report (hp : Paused env m₀ W m) (P : Pairer A) : Paused env m₀ W { m with pairer := P } :=
  ⟨⟨hp.delivered.order, hp.delivered.rings, hp.delivered.sources, hp.delivered.shared, hp.delivered.once,
    hp.delivered.skipped⟩, hp.staged, hp.cursors, hp.waiting, hp.slots, hp.time, hp.below, hp.ringsBeyond,
    hp.stageBeyond, hp.slotsBeyond⟩

theorem Paused.calls (hsound : env.Sound) (hrings : env.rings ≠ 0) (hp : Paused env m₀ W m)
    (hasc : ∀ r, r < env.rings → ∀ t, Ascending (logFrom (env.log r) (m₀.ringCursor r) (env.head t r)))
    {cs : List (MergeCall A)} (hon : AllOnTime H env m₀ m cs) : ∃ W', Paused env m₀ W' (m.calls H env cs) := by
  induction cs generalizing W m with
  | nil => exact ⟨W, hp⟩
  | cons c cs ih =>
      cases c with
      | pass watermark Hm =>
          obtain ⟨W', hp'⟩ := (hp.pass hsound hrings hasc hon.1).1
          exact ih hp' hon.2
      | report P => exact ih (hp.report P) hon

end Runs

/-- Over any run of passes that are on time, with rings whose stamps ascend, the merge delivers in order, and after one
more such pass everything due has been handed over. -/
theorem merge_delivers_in_order {A : Type} [Accum A] (H : HeapLib) (env : World) (m₀ : Merger A)
    (cs : List (MergeCall A)) (hsound : env.Sound) (hrings : env.rings ≠ 0) (hstart : Started env m₀)
    (hasc : ∀ r, r < env.rings → ∀ t, Ascending (logFrom (env.log r) (m₀.ringCursor r) (env.head t r)))
    (hon : AllOnTime H env m₀ m₀ cs) :
    Delivered env m₀ (m₀.calls H env cs) ∧
      ∀ watermark Hm, OnTime H env m₀ (m₀.calls H env cs) watermark Hm →
        Delivered env m₀ ((m₀.calls H env cs).mergePass H env Hm watermark) ∧
        Complete env m₀ (m₀.calls H env cs) ((m₀.calls H env cs).mergePass H env Hm watermark) watermark := by
  obtain ⟨W, hp⟩ := hstart.paused.calls hsound hrings hasc hon
  refine ⟨hp.delivered, fun watermark Hm hpass => ?_⟩
  obtain ⟨⟨W', hp'⟩, hcomplete⟩ := hp.pass hsound hrings hasc hpass
  exact ⟨hp'.delivered, hcomplete⟩

/-- A collector that has just started on empty tables. -/
def startedMerger (cfg : Config) : Merger (Accumulator 4) :=
  ⟨Pairer.reset cfg, 0, [], none, 0, fun _ => 0, fun _ => 0, 0, false, 0, [], [], [], []⟩

/-- Two rings and the shared ring, with a value between the stamps of ring 0 and its last stamp published late. -/
def twoRings : World where
  rings := 2
  mask := 7
  log r i :=
    if r = 0 then (if i = 1 then ⟨5, 1, makeEvent kValueStep 0⟩ else ⟨10 + 10 * i.toUInt64, 1, makeEvent kBeginStep 5⟩)
    else ⟨20 + 5 * i.toUInt64, 1, makeEvent kEndStep 5⟩
  head t r := if r = 0 then (if t < 4 then 2 else 3) else 2
  slot k := ⟨15 + 30 * k.toUInt64, 2, makeEvent kBeginStep 6⟩
  read _ c := 2 - c
  reserved _ := 2
  now t := t
  queueCapacity := 2
  stalledSampleTimeout := 5
  two_le_queueCapacity := by decide

theorem twoRings_published {t k : Nat} : twoRings.Published t k ↔ k < 2 := by
  simp only [World.Published, twoRings]
  omega

theorem twoRings_sound : twoRings.Sound where
  heads r t t' hle := by
    simp only [twoRings]
    split
    · split <;> split <;> omega
    · exact Nat.le_refl _
  handsOut t c i hi := twoRings_published.mpr (by simp only [twoRings] at hi; omega)
  stays _ _ _ _ h := twoRings_published.mpr (twoRings_published.mp h)

theorem twoRings_onTime {m : Merger (Accumulator 4)} {watermark : UInt64} (hpos : 0 < watermark)
    (hlate : watermark ≤ 30 ∨ 4 ≤ m.time)
    (hun : Unlapped twoRings m (m.mergePass sortingLib twoRings sortingLib watermark)) :
    OnTime sortingLib twoRings (startedMerger ⟨2, 4⟩) m watermark sortingLib where
  positive := hpos
  rings r _ i t _ hi _ hlt := by
    simp only [twoRings] at hi hlt ⊢
    split at hi
    · rename_i hr
      rw [if_pos hr] at hlt ⊢
      split
      · rename_i htime
        have hi : i < 3 := by split at hi <;> omega
        rcases hlate with hlate | hlate
        · rcases Nat.lt_or_ge i 2 with h | h
          · exact h
          · obtain rfl : i = 2 := by omega
            exact absurd (UInt64.lt_of_lt_of_le hlt hlate) (by decide)
        · omega
      · split at hi <;> omega
    · rename_i hr
      rw [if_neg hr]
      exact hi
  shared k t hpub _ _ j _ hjk := twoRings_published.mpr (by have := twoRings_published.mp hpub; omega)
  room k hk := by
    have := twoRings_published.mp hk
    simp only [twoRings]
    omega
  unlapped := hun

theorem twoRings_ascending (r t : Nat) : Ascending (logFrom (twoRings.log r) 0 (twoRings.head t r)) := by
  have hhead : twoRings.head t r = 2 ∨ r = 0 ∧ twoRings.head t r = 3 := by
    simp only [twoRings]
    split
    · split <;> simp_all
    · exact Or.inl rfl
  rcases hhead with h | ⟨rfl, h⟩
  · rw [h]
    by_cases hr : r = 0
    · subst hr
      unfold Ascending; decide
    · simp only [Ascending, logFrom, twoRings, if_neg hr]
      decide
  · rw [h]
    unfold Ascending; decide

theorem merge_delivers_in_order_twoRings :
    Delivered twoRings (startedMerger ⟨2, 4⟩) ((startedMerger ⟨2, 4⟩).calls sortingLib twoRings [.pass 22 sortingLib]) ∧
      Complete twoRings (startedMerger ⟨2, 4⟩)
        ((startedMerger ⟨2, 4⟩).calls sortingLib twoRings [.pass 22 sortingLib])
        (((startedMerger ⟨2, 4⟩).calls sortingLib twoRings [.pass 22 sortingLib]).mergePass sortingLib twoRings
          sortingLib 50) 50 := by
  have h := merge_delivers_in_order sortingLib twoRings (startedMerger ⟨2, 4⟩) [.pass 22 sortingLib] twoRings_sound
    (by decide) ⟨rfl, fun _ => rfl, fun _ _ => Nat.zero_le _, rfl, rfl, rfl⟩ (fun r _ t => twoRings_ascending r t)
    ⟨twoRings_onTime (by decide) (Or.inl (by decide)) (by decide), trivial⟩
  exact ⟨h.1, (h.2 50 sortingLib (twoRings_onTime (by decide) (Or.inr (by decide)) (by decide))).2⟩

/-- The producer of slot 0 publishes it only once the collector has looked nine things up. -/
def holeWorld : World where
  rings := 1
  mask := 7
  log _ _ := ⟨0, 0, 0⟩
  head _ _ := 0
  slot _ := ⟨7, 1, makeEvent kBeginStep 5⟩
  read t c := if c = 0 ∧ 9 ≤ t then 1 else 0
  reserved _ := 1
  now t := t
  queueCapacity := 2
  stalledSampleTimeout := 5
  two_le_queueCapacity := by decide

theorem holeWorld_published {t k : Nat} : holeWorld.Published t k ↔ k = 0 ∧ 9 ≤ t := by
  simp only [World.Published, holeWorld]
  split <;> simp_all

theorem holeWorld_sound : holeWorld.Sound where
  heads _ _ _ _ := Nat.le_refl _
  handsOut t c i hi := by
    simp only [holeWorld] at hi
    split at hi
    · rename_i h
      exact holeWorld_published.mpr ⟨by omega, h.2⟩
    · cases hi
  stays t t' k hle h := by
    have := holeWorld_published.mp h
    exact holeWorld_published.mpr ⟨this.1, by omega⟩

/-- Two passes of a low watermark, far enough apart, step over the slot; then it is published, and no pass delivers it. -/
theorem stepped_over_slot_is_not_delivered :
    let m₀ := startedMerger ⟨2, 4⟩
    let cs : List (MergeCall (Accumulator 4)) := [.pass 1 sortingLib, .pass 1 sortingLib]
    let m := m₀.calls sortingLib holeWorld cs
    holeWorld.Sound ∧ Started holeWorld m₀ ∧ AllOnTime sortingLib holeWorld m₀ m₀ (cs ++ [.pass 100 sortingLib]) ∧
      holeWorld.Published m.time 0 ∧ (holeWorld.slot 0).isStamp = true ∧ (holeWorld.slot 0).timestamp < 100 ∧
      (m.mergePass sortingLib holeWorld sortingLib 100).delivered = [] := by
  have hquiet : ∀ (m : Merger (Accumulator 4)) (w : UInt64), 0 < w → (1 ≤ m.cursor ∨ w ≤ 7) →
      Unlapped holeWorld m (m.mergePass sortingLib holeWorld sortingLib w) →
      OnTime sortingLib holeWorld (startedMerger ⟨2, 4⟩) m w sortingLib := by
    intro m w hw hcur hun
    refine ⟨hw, fun r _ i t _ hi => absurd hi (Nat.not_lt_zero _), fun k t hpub _ hlt j hj hjk => ?_, fun k hk => ?_,
      hun⟩
    · rcases hcur with hcur | hcur
      · have := (holeWorld_published.mp hpub).1
        omega
      · exact absurd hlt (UInt64.not_lt.mpr hcur)
    · have := (holeWorld_published.mp hk).1
      simp only [holeWorld]
      omega
  refine ⟨holeWorld_sound, ⟨rfl, fun _ => rfl, fun _ _ => Nat.zero_le _, rfl, rfl, rfl⟩, ⟨?_, ?_, ?_, trivial⟩, ?_,
    by decide, by decide, by decide⟩
  · exact hquiet _ 1 (by decide) (Or.inr (by decide)) (by decide)
  · exact hquiet _ 1 (by decide) (Or.inr (by decide)) (by decide)
  · exact hquiet _ 100 (by decide) (Or.inl (by decide)) (by decide)
  · exact holeWorld_published.mpr (by decide)

end SlickPerfmon
