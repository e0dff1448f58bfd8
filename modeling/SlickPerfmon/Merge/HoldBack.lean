import SlickPerfmon.Merge.Spans

/-!
# The hold-back

`drain_once` and `flush_watermark` choose the watermark of a pass from the collector's counter. Every core has a counter
of its own; a producer reads one, and what it publishes is seen a little later. While the delay and the skew between the
counters stay within the margin a pass leaves, each pass finds published what it is past, and the merge is in order.
-/

namespace SlickPerfmon

open Library

/-! ## Watermarks -/

/-- `drain_once`, with the counter at `now`. -/
def drainWatermark (holdbackCycles now : UInt64) : UInt64 :=
  if now > holdbackCycles then now - holdbackCycles else 0

/-- `flush_watermark`, on what it reads of the counter one after another, up to the reading that ends its loop. -/
def flushWatermark (skewCycles : UInt64) : List UInt64 → Option UInt64
  | [] => none
  | now :: later =>
      let w := now + skewCycles
      match later.dropWhile fun t => t < w + skewCycles with
      | [_] => some w
      | _ => none

theorem flushWatermark_eq_some {skewCycles w : UInt64} {reads : List UInt64}
    (h : flushWatermark skewCycles reads = some w) :
    ∃ now later last, reads = now :: later ++ [last] ∧ w = now + skewCycles ∧ ¬last < w + skewCycles := by
  cases reads with
  | nil => cases h
  | cons now later =>
      simp only [flushWatermark] at h
      split at h
      · rename_i last hlast
        cases h
        have hsplit := List.takeWhile_append_dropWhile (l := later)
          (p := fun t => decide (t < now + skewCycles + skewCycles))
        rw [hlast] at hsplit
        refine ⟨now, _, last, by rw [List.cons_append, hsplit], rfl, ?_⟩
        have := List.head?_dropWhile_not (fun t => decide (t < now + skewCycles + skewCycles)) later
        rw [hlast] at this
        simpa using this
      · cases h

/-! ## When things happen -/

/-- A core's counter is read, and what was made of it is published. -/
structure Stamping where
  core : Nat
  readAt : Nat
  publishedAt : Nat
deriving DecidableEq, Repr

/-- Instants are numbered in their order. `counter c τ` is what core `c` shows at `τ`, and the collector's `t`-th look-up
is at `lookup t`. -/
structure Timing where
  counter : Nat → Nat → UInt64
  lookup : Nat → Nat
  ring : Nat → Nat → Stamping
  slot : Nat → Stamping
  reservedAt : Nat → Nat

/-- Counters that run forward, no two of them more than `skew` apart. -/
structure Timing.Clocked (T : Timing) (skew : Nat) : Prop where
  forward : ∀ c τ τ', τ ≤ τ' → T.counter c τ ≤ T.counter c τ'
  skewed : ∀ c c' τ, (T.counter c τ).toNat ≤ (T.counter c' τ).toNat + skew
  lookups : ∀ t t', t ≤ t' → T.lookup t ≤ T.lookup t'

/-- Between two instants no counter moves by more than `delay`. -/
def Timing.Within (T : Timing) (delay τ τ' : Nat) : Prop :=
  ∀ c, (T.counter c τ').toNat ≤ (T.counter c τ).toNat + delay

section Held

variable {A : Type} (env : World) (T : Timing) (delay : Nat) (m₀ : Merger A)

/-- Producers stamp with a counter and publish within the delay: each ring in its order, and the shared ring's slots
reserved in theirs, after the counter is read. -/
structure Prompt : Prop where
  stamped : ∀ r, r < env.rings → ∀ i t, m₀.ringCursor r ≤ i → i < env.head t r → (env.log r i).isStamp = true →
    (env.log r i).timestamp = T.counter (T.ring r i).core (T.ring r i).readAt ∧
      (T.ring r i).readAt ≤ (T.ring r i).publishedAt ∧ T.Within delay (T.ring r i).readAt (T.ring r i).publishedAt
  visible : ∀ r, r < env.rings → ∀ i t t', m₀.ringCursor r ≤ i → i < env.head t r →
    (T.ring r i).publishedAt ≤ T.lookup t' → i < env.head t' r
  inOrder : ∀ r, r < env.rings → ∀ i j t, m₀.ringCursor r ≤ i → i ≤ j → j < env.head t r →
    (T.ring r i).publishedAt ≤ (T.ring r j).publishedAt
  slotStamped : ∀ k t, env.Published t k → (env.slot k).isStamp = true →
    (env.slot k).timestamp = T.counter (T.slot k).core (T.slot k).readAt ∧
      (T.slot k).readAt ≤ T.reservedAt k ∧ T.Within delay (T.slot k).readAt (T.slot k).publishedAt
  slotPrompt : ∀ j k t, m₀.cursor ≤ j → j ≤ k → env.Published t k → T.reservedAt j ≤ T.reservedAt k ∧
    T.reservedAt j ≤ (T.slot j).publishedAt ∧ T.Within delay (T.reservedAt j) (T.slot j).publishedAt
  slotVisible : ∀ j k t t', m₀.cursor ≤ j → j ≤ k → env.Published t k → (T.slot j).publishedAt ≤ T.lookup t' →
    env.Published t' j

/-! ## Passes -/

/-- A pass of the run loop, with the core and the instant at which it reads the counter; one of a flush, with those of
its readings; or whatever else is done to the pairer. -/
inductive HeldCall (A : Type) : Type 1
  | drainOnce (core τ : Nat) (Hm : HeapLib)
  | flush (reads : List (Nat × Nat)) (Hm : HeapLib)
  | report (P : Pairer A)

variable (holdbackCycles skewCycles : UInt64)

/-- The pass the call comes to. A flush that is still waiting has none. -/
def HeldCall.merge : HeldCall A → Option (MergeCall A)
  | .drainOnce core τ Hm => some (.pass (drainWatermark holdbackCycles (T.counter core τ)) Hm)
  | .flush reads Hm =>
      (flushWatermark skewCycles (reads.map fun x => T.counter x.1 x.2)).map fun w => .pass w Hm
  | .report P => some (.report P)

/-- The instants the call read the counter at. -/
def HeldCall.instants : HeldCall A → List Nat
  | .drainOnce _ τ _ => [τ]
  | .flush reads _ => reads.map Prod.snd
  | .report _ => []

variable [Accum A] (H : HeapLib)

/-- No ring is lapped at a read of the pass, and the shared ring holds no more than it has room for. -/
def PassUnlapped (m : Merger A) : MergeCall A → Prop
  | .pass watermark Hm =>
      (∀ k, env.Published m.time k → k < m.cursor + env.queueCapacity) ∧
        Unlapped env m (m.mergePass H env Hm watermark)
  | .report _ => True

/-- The calls `cs`, the passes they come to, and what each of them starts from: the counter is read before the pass looks
anything up. -/
inductive HeldRun : Merger A → List (HeldCall A) → List (MergeCall A) → Prop
  | nil (m : Merger A) : HeldRun m [] []
  | cons {m : Merger A} {c : HeldCall A} {call : MergeCall A} {cs : List (HeldCall A)} {calls : List (MergeCall A)}
      (hcall : c.merge T holdbackCycles skewCycles = some call) (hread : ∀ τ ∈ c.instants, τ ≤ T.lookup m.time)
      (hroom : PassUnlapped env H m call) (hrest : HeldRun (m.call H env call) cs calls) :
      HeldRun m (c :: cs) (call :: calls)

end Held

/-! ## Margins -/

section Margins

variable {T : Timing} {skew margin c τ : Nat} {w : UInt64}

/-- A reading that is the margin past `w` comes after every publication, prompt by the margin, of what was stamped
below `w`. -/
theorem Timing.Clocked.publishedAt_le (hT : T.Clocked skew) (hw : w.toNat + margin ≤ (T.counter c τ).toNat)
    {core readAt publishedAt d : Nat} (hstamp : T.counter core readAt < w) (hwithin : T.Within d readAt publishedAt)
    (hmargin : skew + d ≤ margin) : publishedAt ≤ τ := by
  by_contra hlate
  have hrun := UInt64.le_iff_toNat_le.mp (hT.forward core τ publishedAt (by omega))
  have hskew := hT.skewed c core τ
  have hd := hwithin core
  have hlt := UInt64.lt_iff_toNat_lt.mp hstamp
  omega

theorem drainWatermark_margin {holdbackCycles now : UInt64} (hpos : 0 < drainWatermark holdbackCycles now) :
    (drainWatermark holdbackCycles now).toNat + holdbackCycles.toNat ≤ now.toNat := by
  unfold drainWatermark at hpos ⊢
  split
  · rename_i hlt
    rw [UInt64.toNat_sub_of_le _ _ (UInt64.le_of_lt hlt)]
    have := UInt64.lt_iff_toNat_lt.mp hlt
    omega
  · rename_i hnot
    rw [if_neg hnot] at hpos
    exact absurd hpos (UInt64.not_lt.mpr UInt64.zero_le)

theorem flushWatermark_margin {skewCycles now last : UInt64} (hwrap : now.toNat + 2 * skewCycles.toNat < 2 ^ 64)
    (hlast : ¬last < now + skewCycles + skewCycles) :
    (now + skewCycles).toNat = now.toNat + skewCycles.toNat ∧
      (now + skewCycles).toNat + skewCycles.toNat ≤ last.toNat := by
  have hw : (now + skewCycles).toNat = now.toNat + skewCycles.toNat := by
    rw [UInt64.toNat_add, Nat.mod_eq_of_lt (by omega)]
  have hww : (now + skewCycles + skewCycles).toNat = now.toNat + skewCycles.toNat + skewCycles.toNat := by
    rw [UInt64.toNat_add, hw, Nat.mod_eq_of_lt (by omega)]
  have hle := UInt64.le_iff_toNat_le.mp (UInt64.not_lt.mp hlast)
  exact ⟨hw, by omega⟩

end Margins

/-! ## A pass that is held back is on time -/

section Passes

variable {A : Type} [Accum A] {H : HeapLib} {env : World} {T : Timing} {skew delay margin : Nat} {m₀ m : Merger A}
  {W : UInt64}

omit [Accum A] in
theorem Prompt.timely (hp : Prompt env T delay m₀) (hT : T.Clocked skew) {w : UInt64} {c τ : Nat}
    (hw : w.toNat + margin ≤ (T.counter c τ).toNat) (hmargin : skew + 2 * delay ≤ margin) (hτ : τ ≤ T.lookup m.time)
    (hcur : m₀.cursor ≤ m.cursor) (hroom : ∀ k, env.Published m.time k → k < m.cursor + env.queueCapacity) :
    Timely env m₀ m w where
  rings r hr i t hi hlt hstamp hts := by
    obtain ⟨hread, -, hwithin⟩ := hp.stamped r hr i t hi hlt hstamp
    rw [hread] at hts
    exact hp.visible r hr i t _ hi hlt ((hT.publishedAt_le hw hts hwithin (by omega)).trans hτ)
  shared k t hpub hstamp hts j hj hjk := by
    obtain ⟨hread, -, hwithin⟩ := hp.slotStamped k t hpub hstamp
    rw [hread] at hts
    obtain ⟨hord, -, hj'⟩ := hp.slotPrompt j k t (hcur.trans hj) hjk hpub
    obtain ⟨-, hres, -⟩ := hp.slotPrompt k k t (hcur.trans (hj.trans hjk)) (Nat.le_refl _) hpub
    -- slot `j` is reserved no later than `k` is published
    have hboth : T.Within (2 * delay) (T.slot k).readAt (T.slot j).publishedAt := by
      intro c
      have h₁ := UInt64.le_iff_toNat_le.mp (hT.forward c _ _ (hord.trans hres))
      have h₂ := hj' c
      have h₃ := hwithin c
      omega
    exact hp.slotVisible j k t _ (hcur.trans hj) hjk hpub ((hT.publishedAt_le hw hts hboth hmargin).trans hτ)
  room := hroom

/-! ## A pass that is past nothing -/

/-- The world in which the rings that are not waiting show nothing new. -/
def quietRings (env : World) (m : Merger A) : World :=
  { env with head := fun t r => if m.ringWaitTs r = 0 then min (env.head t r) (m.ringCursor r) else env.head t r }

omit [Accum A] in
theorem quietRings_head_le (m : Merger A) (t r : Nat) : (quietRings env m).head t r ≤ env.head t r := by
  simp only [quietRings]
  split
  · exact Nat.min_le_left _ _
  · exact Nat.le_refl _

omit [Accum A] in
theorem quietRings_sound (hsound : env.Sound) (m : Merger A) : (quietRings env m).Sound where
  heads r t t' hle := by
    have := hsound.heads r t t' hle
    simp only [quietRings]
    split
    · omega
    · exact this
  handsOut := hsound.handsOut
  stays := hsound.stays

theorem readSharedLoop_quietRings (m₁ : Merger A) (n : Nat) (m : Merger A) (any : Bool) :
    Merger.readSharedLoop H (quietRings env m₁) n m any = Merger.readSharedLoop H env n m any := by
  induction n generalizing m any with
  | zero => rfl
  | succ n ih =>
      have hread : m.readSharedOnce H (quietRings env m₁) = m.readSharedOnce H env := rfl
      rw [Merger.readSharedLoop, Merger.readSharedLoop, hread]
      split
      · exact ih _ _
      · rfl

theorem mergePass_zero_quietRings (m₁ : Merger A) (Hm : HeapLib) (m : Merger A) :
    m.mergePass H (quietRings env m₁) Hm 0 = m.mergePass H env Hm 0 := by
  have hread : m.readShared H (quietRings env m₁) = m.readShared H env := by
    unfold Merger.readShared
    rw [show (quietRings env m₁).queueCapacity = env.queueCapacity from rfl, readSharedLoop_quietRings]
    rfl
  unfold Merger.mergePass
  rw [hread]
  simp only [ringSources_zero, stageSource_zero, Merger.mergeSources]

omit [Accum A] in
theorem Paused.quietRings (hp : Paused env m₀ W m) : Paused (quietRings env m) m₀ W m where
  delivered := ⟨hp.delivered.order, hp.delivered.rings, hp.delivered.sources, hp.delivered.shared, hp.delivered.once,
    hp.delivered.skipped⟩
  staged := hp.staged
  cursors r hr := by
    refine ⟨(hp.cursors r hr).1, ?_⟩
    have := (hp.cursors r hr).2
    simp only [SlickPerfmon.quietRings]
    split
    · omega
    · exact this
  waiting r hr := by
    rcases hp.waiting r hr with h | ⟨hlt, hstamp, hts⟩
    · exact Or.inl h
    · by_cases hzero : m.ringWaitTs r = 0
      · exact Or.inl hzero
      · refine Or.inr ⟨?_, hstamp, hts⟩
        simp only [SlickPerfmon.quietRings, if_neg hzero]
        exact hlt
  slots := hp.slots
  time := hp.time
  below := hp.below
  ringsBeyond r hr i t hi hlt := hp.ringsBeyond r hr i t hi (hlt.trans_le (quietRings_head_le m t r))
  stageBeyond := hp.stageBeyond
  slotsBeyond := hp.slotsBeyond

/-- A pass with watermark 0 leaves the collector paused: it reads no ring, and hands over values alone. -/
theorem Paused.pass_zero (hsound : env.Sound) (hrings : env.rings ≠ 0) (hp : Paused env m₀ W m) (Hm : HeapLib) :
    Paused env m₀ W (m.mergePass H env Hm 0) := by
  have hq := hp.quietRings
  have hstamps : ∀ r, r < env.rings → ∀ t, m.ringCursor r < (SlickPerfmon.quietRings env m).head t r →
      (env.log r (m.ringCursor r)).isStamp = true := by
    intro r hr t hlt
    rcases hp.waiting r hr with hzero | ⟨-, hstamp, -⟩
    · simp only [SlickPerfmon.quietRings, if_pos hzero] at hlt
      omega
    · exact hstamp
  obtain ⟨trace, n, h⟩ := passed_zero (H := H) Hm (quietRings_sound hsound m) hrings hp.staged
    (fun r hr => (hq.cursors r hr).2) hq.waiting hstamps
  rw [mergePass_zero_quietRings] at h
  generalize m.mergePass H env Hm 0 = m' at h ⊢
  have hdel := h.delivered hq
  have hcursor := h.cursor_le
  refine
    { delivered := ⟨hdel.order, hdel.rings, hdel.sources, hdel.shared, hdel.once, hdel.skipped⟩
      staged := h.shared.staged
      cursors := fun r hr => ⟨(hp.cursors r hr).1.trans (h.rings r hr).moved,
        (h.rings r hr).within.trans (quietRings_head_le m _ r)⟩
      waiting := fun r hr => (h.rings r hr).waiting.imp_right fun hw =>
        ⟨hw.1.trans_le (quietRings_head_le m _ r), hw.2⟩
      slots := ⟨by have := hp.slots.1; omega, ⟨fun k hk => ?_, fun k hk hlt => ?_⟩⟩
      time := hp.time.trans h.time
      below := fun x hx hstamp => ?_
      ringsBeyond := fun r hr i t hi hlt => hp.ringsBeyond r hr i t ((h.rings r hr).moved.trans hi) hlt
      stageBeyond := fun s hs => ?_
      slotsBeyond := fun k t hk => hp.slotsBeyond k t (by omega) }
  · rw [h.shared.taken] at hk
    rcases List.mem_append.mp hk with hk | hk
    · have := hp.slots.2.1 k hk
      omega
    · have := (List.mem_range'_1.mp hk).2
      omega
  · by_cases hold : k < m.cursor
    · refine (hp.slots.2.2 k hk hold).imp (fun hk => ?_) fun hk => ?_
      · rw [h.shared.taken]
        exact List.mem_append_left _ hk
      · rcases h.shared.cursor with ⟨-, hs⟩ | ⟨-, -, hs, -⟩ <;> rw [hs]
        · exact hk
        · exact List.mem_append_left _ hk
    · rcases h.shared.cursor with ⟨hc, -⟩ | ⟨-, hc, hs, -⟩
      · left
        rw [h.shared.taken]
        exact List.mem_append_right _ (List.mem_range'_1.mpr ⟨by omega, by omega⟩)
      · right
        rw [hs, show k = m.cursor by omega]
        exact List.mem_append_right _ (List.mem_singleton_self _)
  · rw [h.hands.delivered] at hx
    rcases List.mem_append.mp hx with hx | hx
    · exact hp.below x hx hstamp
    · exact absurd (h.early x hx hstamp) (UInt64.not_lt.mpr UInt64.zero_le)
  · rcases List.mem_append.mp (h.shared.balance.mem_iff.mp (List.mem_append_right _ hs)) with hmem | hmem
    · exact hp.stageBeyond s hmem
    · obtain ⟨k, hk, hlt, rfl⟩ := mem_logFrom.mp hmem
      exact hp.slotsBeyond k _ hk (h.shared.published k hk hlt) (h.shared.staged.stamps _ hs)

end Passes

/-! ## Runs -/

section Runs

variable {A : Type} [Accum A] {H : HeapLib} {env : World} {T : Timing} {skew delay : Nat} {m₀ m : Merger A} {W : UInt64}
  {holdbackCycles skewCycles : UInt64}

/-- What the margins cover, and how far the counters may run. -/
structure Margins (T : Timing) (skew delay : Nat) (holdbackCycles skewCycles : UInt64) : Prop where
  holdback : skew + 2 * delay ≤ holdbackCycles.toNat
  skewMargin : skew + 2 * delay ≤ skewCycles.toNat
  noWrap : ∀ c τ, (T.counter c τ).toNat + 2 * skewCycles.toNat < 2 ^ 64

omit [Accum A] in
/-- A pass of the run loop or of a flush has a reading a margin past its watermark, which nothing was looked up before. -/
theorem HeldCall.margin (hmargins : Margins T skew delay holdbackCycles skewCycles) {c : HeldCall A} {w : UInt64}
    {Hm : HeapLib} (hcall : c.merge T holdbackCycles skewCycles = some (.pass w Hm)) (hpos : 0 < w) :
    ∃ margin core, ∃ τ ∈ c.instants, skew + 2 * delay ≤ margin ∧ w.toNat + margin ≤ (T.counter core τ).toNat := by
  cases c with
  | drainOnce core τ Hm' =>
      cases hcall
      exact ⟨_, core, τ, List.mem_singleton_self τ, hmargins.holdback, drainWatermark_margin hpos⟩
  | flush reads Hm' =>
      simp only [HeldCall.merge, Option.map_eq_some_iff] at hcall
      obtain ⟨w', hw', hcall⟩ := hcall
      cases hcall
      obtain ⟨now, later, last, hreads, rfl, hlast⟩ := flushWatermark_eq_some hw'
      have hmem : last ∈ reads.map fun x => T.counter x.1 x.2 := by rw [hreads]; simp
      have hfirst : now ∈ reads.map fun x => T.counter x.1 x.2 := by rw [hreads]; simp
      obtain ⟨⟨core, τ⟩, hread, rfl⟩ := List.mem_map.mp hmem
      obtain ⟨⟨core₁, τ₁⟩, -, rfl⟩ := List.mem_map.mp hfirst
      exact ⟨_, core, τ, List.mem_map.mpr ⟨_, hread, rfl⟩, hmargins.skewMargin,
        (flushWatermark_margin (hmargins.noWrap core₁ τ₁) hlast).2⟩
  | report P => cases hcall

/-- A pass that has something to be past is on time. -/
theorem HeldCall.onTime (hp : Prompt env T delay m₀) (hT : T.Clocked skew)
    (hmargins : Margins T skew delay holdbackCycles skewCycles) (hpaused : Paused env m₀ W m) {c : HeldCall A}
    {w : UInt64} {Hm : HeapLib} (hcall : c.merge T holdbackCycles skewCycles = some (.pass w Hm))
    (hread : ∀ τ ∈ c.instants, τ ≤ T.lookup m.time) (hroom : PassUnlapped env H m (.pass w Hm)) (hpos : 0 < w) :
    OnTime H env m₀ m w Hm := by
  obtain ⟨margin, core, τ, hτ, hmargin, hw⟩ := HeldCall.margin hmargins hcall hpos
  have h := hp.timely hT hw hmargin (hread τ hτ) hpaused.slots.1 hroom.1
  exact ⟨hpos, h.rings, h.shared, h.room, hroom.2⟩

theorem HeldRun.paused (hsound : env.Sound) (hrings : env.rings ≠ 0)
    (hasc : ∀ r, r < env.rings → ∀ t, Ascending (logFrom (env.log r) (m₀.ringCursor r) (env.head t r)))
    (hp : Prompt env T delay m₀) (hT : T.Clocked skew) (hmargins : Margins T skew delay holdbackCycles skewCycles)
    {cs : List (HeldCall A)} {calls : List (MergeCall A)}
    (hrun : HeldRun env T holdbackCycles skewCycles H m cs calls) (hpaused : Paused env m₀ W m) :
    ∃ W', Paused env m₀ W' (m.calls H env calls) := by
  induction hrun generalizing W with
  | nil m => exact ⟨W, hpaused⟩
  | @cons m c call cs calls hcall hread hroom _ ih =>
      have hnext : ∃ W', Paused env m₀ W' (m.call H env call) := by
        cases call with
        | report P => exact ⟨W, hpaused.report P⟩
        | pass w Hm =>
            by_cases hpos : 0 < w
            · exact (hpaused.pass hsound hrings hasc
                (HeldCall.onTime hp hT hmargins hpaused hcall hread hroom hpos)).1
            · obtain rfl : w = 0 := UInt64.le_zero_iff.mp (UInt64.not_lt.mp hpos)
              exact ⟨W, hpaused.pass_zero hsound hrings Hm⟩
      obtain ⟨W', hnext⟩ := hnext
      exact ih hnext

end Runs

/-- With the skew and twice the delay within the hold-back and the skew margin, every run of passes delivers in
timestamp order whatever the counters read; and a flush hands over all that was published, and every stamp whose counter
was read, before it began. Of the shared ring it may have been stepped over before. -/
theorem hold_back_keeps_order {A : Type} [Accum A] (H : HeapLib) (env : World) (T : Timing) (skew delay : Nat)
    (holdbackCycles skewCycles : UInt64) (m₀ : Merger A) (cs : List (HeldCall A)) (calls : List (MergeCall A))
    (hsound : env.Sound) (hrings : env.rings ≠ 0) (hstart : Started env m₀)
    (hasc : ∀ r, r < env.rings → ∀ t, Ascending (logFrom (env.log r) (m₀.ringCursor r) (env.head t r)))
    (hprompt : Prompt env T delay m₀) (hT : T.Clocked skew) (hmargins : Margins T skew delay holdbackCycles skewCycles)
    (hrun : HeldRun env T holdbackCycles skewCycles H m₀ cs calls) :
    Delivered env m₀ (m₀.calls H env calls) ∧
      ∀ core τ reads Hm w, HeldCall.merge T holdbackCycles skewCycles (A := A) (.flush ((core, τ) :: reads) Hm) =
          some (.pass w Hm) →
        (∀ x ∈ (core, τ) :: reads, x.2 ≤ T.lookup (m₀.calls H env calls).time) → skew < skewCycles.toNat →
        PassUnlapped env H (m₀.calls H env calls) (.pass w Hm) →
        let m := (m₀.calls H env calls).mergePass H env Hm w
        (∀ r, r < env.rings → ∀ i t, m₀.ringCursor r ≤ i → i < env.head t r →
          (T.ring r i).publishedAt ≤ τ ∨ (env.log r i).isStamp = true ∧ (T.ring r i).readAt ≤ τ → i < m.ringCursor r) ∧
        ∀ k t, m₀.cursor ≤ k → env.Published t k → (env.slot k).isStamp = true → (T.slot k).readAt ≤ τ →
          (none, env.slot k) ∈ m.delivered ∨ k ∈ (m₀.calls H env calls).skipped := by
  obtain ⟨W, hp⟩ := hrun.paused hsound hrings hasc hprompt hT hmargins hstart.paused
  refine ⟨hp.delivered, fun core τ reads Hm w hcall hread hskew hroom => ?_⟩
  generalize m₀.calls H env calls = m at hp hread hroom ⊢
  -- the watermark is past every counter at `τ`
  have hpast : ∀ c τ', τ' ≤ τ → T.counter c τ' < w := by
    intro c τ' hτ'
    simp only [HeldCall.merge, Option.map_eq_some_iff] at hcall
    obtain ⟨w', hw', hcall⟩ := hcall
    cases hcall
    obtain ⟨now, later, last, hreads, rfl, hlast⟩ := flushWatermark_eq_some hw'
    obtain rfl : T.counter core τ = now := by
      rw [List.map_cons, List.cons_append, List.cons.injEq] at hreads
      exact hreads.1
    have h₁ := UInt64.le_iff_toNat_le.mp (hT.forward c τ' τ hτ')
    have h₂ := hT.skewed c core τ
    have h₃ := (flushWatermark_margin (hmargins.noWrap core τ) hlast).1
    rw [UInt64.lt_iff_toNat_lt]
    omega
  have hpos : 0 < w := UInt64.lt_of_le_of_lt UInt64.zero_le (hpast core τ (Nat.le_refl τ))
  have hon := HeldCall.onTime hprompt hT hmargins hp hcall
    (fun x hx => by obtain ⟨y, hy, rfl⟩ := List.mem_map.mp hx; exact hread y hy) hroom hpos
  obtain ⟨⟨W', hp'⟩, hcomplete⟩ := hp.pass hsound hrings hasc hon
  refine ⟨fun r hr i t hi hlt hdue => ?_, fun k t hk hpub hstamp hreadAt => ?_⟩
  · rcases hdue with hpublished | ⟨hstamp, hreadAt⟩
    · -- so are the stamps in front of it
      have hhead : ∀ x ∈ (HeldCall.flush (A := A) ((core, τ) :: reads) Hm).instants, x ≤ T.lookup m.time := fun x hx => by
        obtain ⟨y, hy, rfl⟩ := List.mem_map.mp hx
        exact hread y hy
      have hlook := hhead τ List.mem_cons_self
      refine hcomplete.rings r hr i hi (hprompt.visible r hr i t _ hi hlt (hpublished.trans hlook)) fun j hj hji hs => ?_
      obtain ⟨hts, hle, -⟩ := hprompt.stamped r hr j t hj (Nat.lt_of_le_of_lt hji hlt) hs
      rw [hts]
      exact hpast _ _ (hle.trans ((hprompt.inOrder r hr j i t hj hji hlt).trans hpublished))
    · have hts := (hprompt.stamped r hr i t hi hlt hstamp).1
      have hearly : (env.log r i).timestamp < w := by rw [hts]; exact hpast _ _ hreadAt
      exact hcomplete.stamps r hr i hi (hon.rings r hr i t hi hlt hstamp hearly) hstamp hearly
  · have hts := (hprompt.slotStamped k t hpub hstamp).1
    have hearly : (env.slot k).timestamp < w := by rw [hts]; exact hpast _ _ hreadAt
    refine (hcomplete.shared k hk fun j hj hjk => hon.shared k t hpub hstamp hearly j hj hjk).imp_left fun htaken => ?_
    have hmem := hp'.delivered.shared.mem_iff.mpr (List.mem_map.mpr ⟨k, htaken, rfl⟩)
    rcases List.mem_append.mp hmem with hmem | hmem
    · obtain ⟨⟨ring, s⟩, hx, hs⟩ := List.mem_map.mp hmem
      obtain ⟨hx, hnone⟩ := List.mem_filter.mp hx
      have hring : ring = none := of_decide_eq_true hnone
      cases hs
      rw [← hring]
      exact hx
    · exact absurd hearly (UInt64.not_lt.mpr (hcomplete.staged _ hmem).2)

/-- The two rings with cores a tick apart, the collector's first look-ups at 100 and the others at 500; what ring 0 has
last is published at 104. -/
def twoRingsTiming : Timing where
  counter c τ := UInt64.ofNat (min τ 1000 + c % 2)
  lookup t := if t < 4 then 100 else 500
  ring r i :=
    if r = 0 then (if i = 2 then ⟨0, 30, 104⟩ else ⟨0, 10 + 2 * i, 10 + 2 * i⟩) else ⟨0, 20 + 5 * i, 20 + 5 * i⟩
  slot k := ⟨0, 15 + 30 * k, 15 + 30 * k⟩
  reservedAt k := 15 + 30 * k

theorem twoRingsTiming_counter (c τ : Nat) : (twoRingsTiming.counter c τ).toNat = min τ 1000 + c % 2 := by
  have hlt : min τ 1000 + c % 2 < 2 ^ 64 := by omega
  rw [twoRingsTiming, UInt64.toNat_ofNat', Nat.mod_eq_of_lt hlt]

theorem twoRingsTiming_clocked : twoRingsTiming.Clocked 1 where
  forward c τ τ' h := by
    rw [UInt64.le_iff_toNat_le, twoRingsTiming_counter, twoRingsTiming_counter]
    omega
  skewed c c' τ := by
    rw [twoRingsTiming_counter, twoRingsTiming_counter]
    omega
  lookups t t' h := by
    simp only [twoRingsTiming]
    split <;> split <;> omega

theorem twoRings_head (r t : Nat) : twoRings.head t r = if r = 0 then (if t < 4 then 2 else 3) else 2 := rfl

theorem twoRings_prompt : Prompt twoRings twoRingsTiming 74 (startedMerger ⟨2, 4⟩) where
  stamped r hr i t _ hi hstamp := by
    have hi3 : i < 3 := by rw [twoRings_head] at hi; split at hi <;> [split at hi; skip] <;> omega
    have hwithin : ∀ τ τ', τ' ≤ τ + 74 → twoRingsTiming.Within 74 τ τ' := fun τ τ' h c => by
      rw [twoRingsTiming_counter, twoRingsTiming_counter]
      omega
    have hr2 : r < 2 := hr
    obtain rfl | rfl : r = 0 ∨ r = 1 := by omega
    · obtain rfl | rfl | rfl : i = 0 ∨ i = 1 ∨ i = 2 := by omega
      · exact ⟨by decide, by decide, hwithin _ _ (by decide)⟩
      · exact absurd hstamp (by decide)
      · exact ⟨by decide, by decide, hwithin _ _ (by decide)⟩
    · obtain rfl | rfl : i = 0 ∨ i = 1 := by rw [twoRings_head] at hi; simp at hi; omega
      · exact ⟨by decide, by decide, hwithin _ _ (by decide)⟩
      · exact ⟨by decide, by decide, hwithin _ _ (by decide)⟩
  visible r hr i t t' _ hi hpub := by
    rw [twoRings_head] at hi ⊢
    split at hi
    · rename_i h0
      subst h0
      by_cases h2 : i = 2
      · subst h2
        have hlate : ¬t' < 4 := fun hlt => by
          simp [twoRingsTiming, hlt] at hpub
        simp [hlate]
      · simp only [if_true]
        split at hi <;> split <;> omega
    · rename_i h0
      rw [if_neg h0]
      exact hi
  inOrder r hr i j t _ hij hj := by
    rw [twoRings_head] at hj
    simp only [twoRingsTiming]
    split
    · rename_i h0
      rw [if_pos h0] at hj
      have hj3 : j < 3 := by split at hj <;> omega
      split <;> split <;> simp only <;> omega
    · simp only
      omega
  slotStamped k t hpub _ := by
    have hk := twoRings_published.mp hpub
    obtain rfl | rfl : k = 0 ∨ k = 1 := by omega
    · exact ⟨by decide, Nat.le_refl _, fun c => Nat.le_add_right _ _⟩
    · exact ⟨by decide, Nat.le_refl _, fun c => Nat.le_add_right _ _⟩
  slotPrompt j k t _ hjk _ := by
    refine ⟨?_, Nat.le_refl _, fun c => Nat.le_add_right _ _⟩
    simp only [twoRingsTiming]
    omega
  slotVisible j k t t' _ hjk hpub _ := twoRings_published.mpr (by have := twoRings_published.mp hpub; omega)

theorem twoRings_unlapped {m : Merger (Accumulator 4)} {w : UInt64}
    (hun : Unlapped twoRings m (m.mergePass sortingLib twoRings sortingLib w)) :
    PassUnlapped twoRings sortingLib m (.pass w sortingLib) :=
  ⟨fun k hk => by
    have := twoRings_published.mp hk
    simp only [twoRings]
    omega, hun⟩

/-- Two passes that are held back from everything, and a flush that is not. -/
theorem hold_back_keeps_order_twoRings :
    let m₀ : Merger (Accumulator 4) := startedMerger ⟨2, 4⟩
    let m := (m₀.calls sortingLib twoRings [.pass 0 sortingLib, .pass 0 sortingLib]).mergePass sortingLib twoRings
      sortingLib 300
    Delivered twoRings m₀ (m₀.calls sortingLib twoRings [.pass 0 sortingLib, .pass 0 sortingLib]) ∧
      2 < m.ringCursor 0 ∧ (none, twoRings.slot 1) ∈ m.delivered := by
  have h := hold_back_keeps_order sortingLib twoRings twoRingsTiming 1 74 150 150 (startedMerger ⟨2, 4⟩)
    [.drainOnce 0 100 sortingLib, .drainOnce 0 100 sortingLib] [.pass 0 sortingLib, .pass 0 sortingLib] twoRings_sound
    (by decide) ⟨rfl, fun _ => rfl, fun _ _ => Nat.zero_le _, rfl, rfl, rfl⟩ (fun r _ t => twoRings_ascending r t)
    twoRings_prompt twoRingsTiming_clocked
    ⟨by decide, by decide, fun c τ => by
      rw [twoRingsTiming_counter, show (150 : UInt64).toNat = 150 from rfl]
      omega⟩
    (.cons rfl (by decide) (twoRings_unlapped (by decide))
      (.cons rfl (by decide) (twoRings_unlapped (by decide)) (.nil _)))
  obtain ⟨hrings, hslots⟩ := h.2 0 150 [(0, 450)] sortingLib 300 rfl (by decide) (by decide)
    (twoRings_unlapped (by decide))
  refine ⟨h.1, hrings 0 (by decide) 2 4 (Nat.zero_le _) (by decide) (Or.inr (by decide)), ?_⟩
  exact (hslots 1 0 (Nat.zero_le _) (twoRings_published.mpr (by decide)) (by decide) (by decide)).resolve_right (by decide)

end SlickPerfmon
