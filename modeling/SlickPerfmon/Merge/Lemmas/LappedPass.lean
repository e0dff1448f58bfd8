import SlickPerfmon.Merge.Lemmas.Lapped
import SlickPerfmon.Merge.Lemmas.Pass

/-!
# A pass over rings that may be lapped

Reading the shared ring and the stage leave the thread rings alone; a ring is opened where its cursor is, and read no
further than the head its pass first finds.
-/

namespace SlickPerfmon

open Library

/-! ## The shared ring and the stage -/

section Aside

variable {A : Type} [Accum A]

/-- From `m` to `m'` nothing of any thread ring changes. -/
structure Aside (m m' : Merger A) : Prop where
  rings : RingsKept m m'
  samples : ∀ r, ringSamples r m' = ringSamples r m
  time : m.time ≤ m'.time

variable (H : HeapLib) (env : World) {m m' m'' : Merger A}

omit [Accum A] in
theorem Aside.refl (m : Merger A) : Aside m m := ⟨⟨rfl, rfl, rfl⟩, fun _ => rfl, Nat.le_refl _⟩

omit [Accum A] in
theorem Aside.trans (h : Aside m m') (h' : Aside m' m'') : Aside m m'' where
  rings := ⟨h'.rings.cursor.trans h.rings.cursor, h'.rings.waitTs.trans h.rings.waitTs,
    h'.rings.lost.trans h.rings.lost⟩
  samples r := (h'.samples r).trans (h.samples r)
  time := h.time.trans h'.time

theorem takeShared_aside (m : Merger A) (s : Sample) : Aside m (m.takeShared H env s) := by
  unfold Merger.takeShared
  split
  · refine ⟨⟨rfl, rfl, rfl⟩, fun r => ?_, Nat.le_refl _⟩
    rw [Fed.ringSamples_source (l := [s]) (fed_onEvent H m none s) r, if_neg (Option.some_ne_none r).symm,
      List.append_nil]
  · exact ⟨⟨rfl, rfl, rfl⟩, fun _ => rfl, Nat.le_refl _⟩

theorem readSharedOnce_aside (m : Merger A) : Aside m (m.readSharedOnce H env).1 := by
  have hfold : ∀ (l : List Sample) (m : Merger A), Aside m (l.foldl (Merger.takeShared H env) m) := by
    intro l
    induction l with
    | nil => exact Aside.refl
    | cons s l ih => exact fun m => (takeShared_aside H env m s).trans (ih _)
  unfold Merger.readSharedOnce
  simp only
  have hread : Aside m
      { m with
        time := m.time + 1
        cursor := m.cursor + env.read m.time m.cursor
        taken := m.taken ++ List.range' m.cursor (env.read m.time m.cursor) } :=
    ⟨⟨rfl, rfl, rfl⟩, fun _ => rfl, Nat.le_succ _⟩
  split
  · exact hread
  · exact hread.trans (hfold _ _)

theorem readSharedLoop_aside (n : Nat) (m : Merger A) (any : Bool) :
    Aside m (Merger.readSharedLoop H env n m any).1 := by
  induction n generalizing m any with
  | zero => exact Aside.refl m
  | succ n ih =>
      have hread := readSharedOnce_aside H env m
      rw [Merger.readSharedLoop]
      generalize m.readSharedOnce H env = out at hread ⊢
      obtain ⟨m', more⟩ := out
      cases more with
      | true => exact hread.trans (ih m' true)
      | false => exact hread

theorem readShared_aside (m : Merger A) : Aside m (m.readShared H env).1 := by
  have hread := readSharedLoop_aside H env env.queueCapacity m false
  unfold Merger.readShared
  generalize Merger.readSharedLoop H env env.queueCapacity m false = out at hread ⊢
  obtain ⟨m', any⟩ := out
  cases any with
  | true => exact hread.trans ⟨⟨rfl, rfl, rfl⟩, fun _ => rfl, Nat.le_refl _⟩
  | false =>
      obtain ⟨hrings, -, hhanded, -, -, htime, -⟩ := checkStall_spec env m'
      exact hread.trans ⟨hrings, fun r => by rw [ringSamples, hhanded]; rfl, htime⟩

omit [Accum A] in
theorem eraseStage_aside (sources : List MergeSource) (m : Merger A) :
    Aside m (sources.foldl Merger.eraseStage m) := by
  induction sources generalizing m with
  | nil => exact Aside.refl m
  | cons src sources ih =>
      refine Aside.trans ?_ (ih (m.eraseStage src))
      unfold Merger.eraseStage
      split
      · exact ⟨⟨rfl, rfl, rfl⟩, fun _ => rfl, Nat.le_refl _⟩
      · exact Aside.refl m

omit [Accum A] in
theorem Aside.untouched (h : Aside m m') (r : Nat) : Untouched r m m' [] := .still (h.samples r)

end Aside

/-! ## Opening the rings -/

section Opening

variable {A : Type} [Accum A] (H : HeapLib) (env : World)

/-- From `m` to `m'` the rings `rs` were opened one after the other; `new` are those with something to hand over, and
`heads r` is the head of ring `r` as it was first found. -/
structure RingsLined (rs : List Nat) (m m' : Merger A) (new : List MergeSource) (heads : Nat → Nat)
    (steps : List RingStep) : Prop where
  lined : ∀ src ∈ new, Lined env src ∧ ∃ r ∈ rs, src.ring = some r
  nodup : (new.map MergeSource.ring).Nodup
  added : m'.ringLost = m.ringLost + addedLost steps
  time : m.time ≤ m'.time
  others : ∀ r, r ∉ rs → Untouched r m m' steps ∧ m'.ringCursor r = m.ringCursor r
  opened : ∀ r ∈ rs, ∃ b y e, Consumed env r m m' steps (m.ringCursor r) b (heads r - m.ringCursor r) y ∧
    Stands m' (· ∈ new) r b y e ∧
    ((∀ t t', t ≤ t' → env.head t r ≤ env.head t' r) → m.ringCursor r ≤ env.head m.time r → e ≤ env.head m'.time r)

variable {H env} {m m₁ m' : Merger A} {r : Nat} {rs : List Nat} {new new' : List MergeSource} {heads : Nat → Nat}
  {steps steps' : List RingStep}

omit [Accum A] in
theorem RingsLined.nil (m : Merger A) : RingsLined env [] m m [] heads [] where
  lined _ hs := by cases hs
  nodup := List.nodup_nil
  added := rfl
  time := Nat.le_refl _
  others _ _ := ⟨.still rfl, rfl⟩
  opened _ hr := by cases hr

omit [Accum A] in
theorem RingsLined.cons (hr : r ∉ rs) (h : RingsLined env [r] m m₁ new heads steps)
    (h' : RingsLined env rs m₁ m' new' heads steps') :
    RingsLined env (r :: rs) m m' (new ++ new') heads (steps ++ steps') where
  lined src hsrc := by
    rcases List.mem_append.mp hsrc with hsrc | hsrc
    · obtain ⟨hlined, r', hr', hring⟩ := h.lined src hsrc
      exact ⟨hlined, r', List.mem_cons.mpr (Or.inl (List.mem_singleton.mp hr')), hring⟩
    · obtain ⟨hlined, r', hr', hring⟩ := h'.lined src hsrc
      exact ⟨hlined, r', List.mem_cons_of_mem _ hr', hring⟩
  nodup := by
    rw [List.map_append]
    refine List.nodup_append.mpr ⟨h.nodup, h'.nodup, fun x hx y hy hxy => ?_⟩
    obtain ⟨src, hsrc, rfl⟩ := List.mem_map.mp hx
    obtain ⟨src', hsrc', rfl⟩ := List.mem_map.mp hy
    obtain ⟨-, r₁, hr₁, hring⟩ := h.lined src hsrc
    obtain ⟨-, r₂, hr₂, hring'⟩ := h'.lined src' hsrc'
    rw [hring, hring'] at hxy
    cases hxy
    exact hr (List.mem_singleton.mp hr₁ ▸ hr₂)
  added := by rw [h'.added, h.added, addedLost_append, Nat.add_assoc]
  time := h.time.trans h'.time
  others r' hr' := by
    obtain ⟨hone, hcursor⟩ := h.others r' fun hmem => hr' (List.mem_cons.mpr (Or.inl (List.mem_singleton.mp hmem)))
    obtain ⟨hrest, hcursor'⟩ := h'.others r' fun hmem => hr' (List.mem_cons_of_mem _ hmem)
    exact ⟨hone.trans hrest, hcursor'.trans hcursor⟩
  opened r' hr' := by
    rcases List.mem_cons.mp hr' with rfl | hr'
    · -- what comes after does not touch this ring
      obtain ⟨b, y, e, hown, hst, hreach⟩ := h.opened r' (List.mem_singleton_self r')
      obtain ⟨hrest, hcursor⟩ := h'.others r' hr
      refine ⟨b, y, e, hown.trans (hrest.consumed b y), hst.mono (fun src hsrc => ?_) hcursor,
        fun hmono hle => (hreach hmono hle).trans (hmono _ _ h'.time)⟩
      rw [List.mem_append]
      refine ⟨fun hmem => hmem.resolve_right fun hmem => ?_, Or.inl⟩
      obtain ⟨-, r₂, hr₂, hring⟩ := h'.lined src hmem
      cases hsrc.symm.trans hring
      exact hr hr₂
    · obtain ⟨hone, hcursor⟩ := h.others r' fun hmem => hr (List.mem_singleton.mp hmem ▸ hr')
      obtain ⟨b, y, e, hown, hst, hreach⟩ := h'.opened r' hr'
      rw [hcursor] at hown hreach
      refine ⟨b, y, e, (hone.consumed _ _).trans hown, hst.mono (fun src hsrc => ?_) rfl,
        fun hmono hle => hreach hmono (hle.trans (hmono _ _ h.time))⟩
      rw [List.mem_append]
      refine ⟨fun hmem => hmem.resolve_left fun hmem => ?_, Or.inr⟩
      obtain ⟨-, r₂, hr₂, hring⟩ := h.lined src hmem
      cases hsrc.symm.trans hring
      exact hr (List.mem_singleton.mp hr₂ ▸ hr')

omit [Accum A] in
/-- A ring that still waits is left alone. -/
theorem RingsLined.waiting (r : Nat) (m : Merger A) : RingsLined env [r] m m [] heads [] where
  lined _ hs := by cases hs
  nodup := List.nodup_nil
  added := rfl
  time := Nat.le_refl _
  others _ _ := ⟨.still rfl, rfl⟩
  opened r' _ := by
    have hnone : Untouched r' m m [] := .still rfl
    exact ⟨m.ringCursor r', _, m.ringCursor r', hnone.consumed _ _,
      Or.inr ⟨fun _ hs => absurd hs List.not_mem_nil, rfl, rfl⟩, fun _ hle => hle⟩

omit [Accum A] in
/-- A ring is read from its cursor on. -/
theorem RingsLined.opening {stop : Nat} {out : Merger A × MergeSource × Bool} (hheads : heads r = stop)
    (h : Advanced env r stop m ⟨[], 0, m.ringCursor r, none, some r⟩ out steps) :
    RingsLined env [r] m out.1 (if out.2.2 then [out.2.1] else []) heads steps where
  lined src hsrc := by
    cases hmore : out.2.2 with
    | true =>
        rw [hmore] at hsrc
        obtain rfl := List.mem_singleton.mp hsrc
        exact ⟨⟨h.more hmore, fun r' hr' => by rw [h.chunk.ring] at hr'; cases hr'; exact h.chunk,
          fun _ _ => ⟨stop, h.stopped⟩⟩, r, List.mem_singleton_self r, h.chunk.ring⟩
    | false =>
        rw [hmore] at hsrc
        cases hsrc
  nodup := by
    cases out.2.2 with
    | true => exact List.nodup_singleton _
    | false => exact List.nodup_nil
  added := h.added
  time := h.time
  others r' hr' := by
    have hne : r' ≠ r := fun heq => hr' (List.mem_singleton.mpr heq)
    exact ⟨h.others r' hne, (h.kept r' fun heq => hne (Option.some.inj heq).symm).1⟩
  opened r' hr' := by
    obtain rfl := List.mem_singleton.mp hr'
    have hleft : MergeSource.left stop ⟨[], 0, m.ringCursor r', none, some r'⟩ = stop - m.ringCursor r' :=
      Nat.zero_add _
    have hown := h.consumed
    rw [hleft, ← hheads] at hown
    cases hmore : out.2.2 with
    | true =>
        refine ⟨_, _, _, hown, Or.inl ⟨out.2.1, List.mem_singleton_self _, h.chunk.ring, ?_, ?_, rfl⟩,
          fun hmono hle => (h.heads hmono hle).1⟩
        · rw [place, if_pos hmore]
        · rw [if_pos hmore, MergeSource.ahead, h.stopped, hheads]
          rfl
    | false =>
        have hplace : place r' out = out.1.ringCursor r' := by
          unfold place
          rw [hmore]
          rfl
        refine ⟨_, _, out.1.ringCursor r', hown,
          Or.inr ⟨fun _ hs => absurd hs List.not_mem_nil, hplace, rfl⟩, fun hmono hle => ?_⟩
        rw [← hplace]
        exact (h.heads hmono hle).2

theorem ringSources_lossy (watermark : UInt64) (rs : List Nat) (hnodup : rs.Nodup) (m : Merger A)
    (sources : List MergeSource) (hheads : ∀ before r after, rs = before ++ r :: after →
      heads r = env.head (Merger.ringSources H env watermark before m sources).1.time r) :
    ∃ new steps, (Merger.ringSources H env watermark rs m sources).2 = sources ++ new ∧
      RingsLined env rs m (Merger.ringSources H env watermark rs m sources).1 new heads steps ∧
      ∃ n, ∀ limit log, n ≤ limit → Merger.ringSourcesWithin H env limit watermark rs m log sources =
        some ((Merger.ringSources H env watermark rs m sources).1, log ++ steps,
          (Merger.ringSources H env watermark rs m sources).2) := by
  induction rs generalizing m sources with
  | nil => exact ⟨[], [], (List.append_nil _).symm, .nil m, 0, fun limit log _ => by rw [List.append_nil]; rfl⟩
  | cons r rs ih =>
      obtain ⟨hr, hnodup⟩ := List.nodup_cons.mp hnodup
      have hstop : heads r = env.head m.time r := hheads [] r rs rfl
      have hrest : ∀ before r' after, rs = before ++ r' :: after →
          heads r' = env.head (Merger.ringSources H env watermark (r :: before) m sources).1.time r' :=
        fun before r' after heq => hheads (r :: before) r' after (by rw [heq]; rfl)
      rw [Merger.ringSources]
      simp only [Merger.ringSources] at hrest
      by_cases hwait : m.ringWaitTs r ≥ watermark
      · simp only [if_pos hwait] at hrest ⊢
        obtain ⟨new, steps, hsources, hlined, n, hwithin⟩ := ih hnodup m sources hrest
        refine ⟨new, steps, hsources, RingsLined.cons hr (.waiting r m) hlined, n, fun limit log hlimit => ?_⟩
        rw [Merger.ringSourcesWithin, if_pos hwait]
        exact hwithin limit log hlimit
      · simp only [if_neg hwait] at hrest ⊢
        have hchunk : Chunk env r ⟨[], 0, m.ringCursor r, none, some r⟩ :=
          ⟨rfl, Nat.le_refl _, (logFrom_eq_nil (Nat.le_refl _)).symm⟩
        obtain ⟨steps, hadv, hnext⟩ := nextStamp_lossy H m watermark hchunk (Or.inr ⟨rfl, rfl, rfl⟩)
        generalize m.nextStamp H env watermark ⟨[], 0, m.ringCursor r, none, some r⟩ = out at hadv hnext hrest ⊢
        have hone := RingsLined.opening hstop hadv
        obtain ⟨m₁, src, more⟩ := out
        cases more with
        | true =>
            obtain ⟨new, steps', hsources, hlined, n, hwithin⟩ := ih hnodup m₁ (sources ++ [src]) hrest
            refine ⟨[src] ++ new, steps ++ steps', ?_, RingsLined.cons hr hone hlined, n + env.head m.time r + 2,
              fun limit log hlimit => ?_⟩
            · rw [← List.append_assoc]
              exact hsources
            · rw [Merger.ringSourcesWithin, if_neg hwait]
              simp only [hnext limit log (by omega)]
              rw [hwithin limit _ (by omega), List.append_assoc]
        | false =>
            obtain ⟨new, steps', hsources, hlined, n, hwithin⟩ := ih hnodup m₁ sources hrest
            refine ⟨[] ++ new, steps ++ steps', hsources, RingsLined.cons hr hone hlined, n + env.head m.time r + 2,
              fun limit log hlimit => ?_⟩
            rw [Merger.ringSourcesWithin, if_neg hwait]
            simp only [hnext limit log (by omega)]
            rw [hwithin limit _ (by omega), List.append_assoc]

end Opening

/-! ## The pass -/

section Pass

variable {A : Type} [Accum A] (H : HeapLib) (env : World)

/-- The head a pass finds when it first reads ring `r`: the rings before it have been opened by then. -/
def Merger.firstHead (m : Merger A) (watermark : UInt64) (r : Nat) : Nat :=
  let shared := m.readShared H env
  env.head (Merger.ringSources H env watermark (List.range r) { shared.1 with progressed := shared.2 }
    (shared.1.stageSource watermark)).1.time r

/-- From `m` to `m'` every ring is consumed from its cursor on, with at most `bound r` samples of ring `r` handed
over. -/
structure Consumes (m m' : Merger A) (bound : Nat → Nat) (steps : List RingStep) : Prop where
  rings : ∀ r, Consumed env r m m' steps (m.ringCursor r) (m'.ringCursor r) (bound r) 0
  heads : ∀ r, (∀ t t', t ≤ t' → env.head t r ≤ env.head t' r) → m.ringCursor r ≤ env.head m.time r →
    m'.ringCursor r ≤ env.head m'.time r
  added : m'.ringLost = m.ringLost + addedLost steps
  time : m.time ≤ m'.time

variable {H env} {m m' m'' : Merger A} {bound bound' : Nat → Nat} {steps steps' : List RingStep} {watermark : UInt64}

omit [Accum A] in
theorem Consumes.trans (h : Consumes env m m' bound steps) (h' : Consumes env m' m'' bound' steps') :
    Consumes env m m'' (fun r => bound r + bound' r) (steps ++ steps') where
  rings r := by
    have hleft := (h.rings r).left
    have hfirst : Consumed env r m m' steps (m.ringCursor r) (m'.ringCursor r) (bound r + bound' r) (bound' r) :=
      ⟨(h.rings r).tiles, (h.rings r).samples, by omega⟩
    exact hfirst.trans (h'.rings r)
  heads r hmono hle := h'.heads r hmono (h.heads r hmono hle)
  added := by rw [h'.added, h.added, addedLost_append, Nat.add_assoc]
  time := h.time.trans h'.time

omit [Accum A] in
theorem Aside.consumes (h : Aside m m') : Consumes env m m' (fun _ => 0) [] where
  rings r := by
    rw [h.rings.cursor]
    exact (h.untouched r).consumed _ 0
  heads r hmono hle := by
    rw [h.rings.cursor]
    exact hle.trans (hmono _ _ h.time)
  added := h.rings.lost
  time := h.time

omit [Accum A] in
/-- Where a ring stands once all are open, whether it is among them or not. -/
theorem RingsLined.stands {rs : List Nat} {new : List MergeSource} {heads : Nat → Nat}
    (h : RingsLined env rs m m' new heads steps) (r : Nat) :
    ∃ b y e, Consumed env r m m' steps (m.ringCursor r) b (heads r - m.ringCursor r) y ∧ Stands m' (· ∈ new) r b y e ∧
      ((∀ t t', t ≤ t' → env.head t r ≤ env.head t' r) → m.ringCursor r ≤ env.head m.time r →
        e ≤ env.head m'.time r) := by
  by_cases hr : r ∈ rs
  · exact h.opened r hr
  · obtain ⟨hnone, hcursor⟩ := h.others r hr
    refine ⟨_, _, m.ringCursor r, hnone.consumed _ _, Or.inr ⟨fun src hsrc heq => ?_, hcursor.symm, hcursor.symm⟩,
      fun hmono hle => hle.trans (hmono _ _ h.time)⟩
    obtain ⟨-, r', hr', hring⟩ := h.lined src hsrc
    cases heq.symm.trans hring
    exact hr hr'

omit [Accum A] in
/-- The rings are opened, and then all sources merged. -/
theorem RingsLined.consumes {rs : List Nat} {stage new : List MergeSource} {heads : Nat → Nat}
    (h : RingsLined env rs m m' new heads steps) (hstage : ∀ src ∈ stage, src.ring = none)
    (h' : Drained env m' (· ∈ stage ++ new) m'' steps') :
    Consumes env m m'' (fun r => heads r - m.ringCursor r) (steps ++ steps') := by
  have hlive : ∀ (r : Nat) (src : MergeSource), src.ring = some r → (src ∈ stage ++ new ↔ src ∈ new) := by
    intro r src hr
    rw [List.mem_append]
    refine ⟨fun hmem => hmem.resolve_left fun hmem => ?_, Or.inr⟩
    cases hr.symm.trans (hstage src hmem)
  exact
    { rings := fun r => by
        obtain ⟨b, y, e, hown, hst, -⟩ := h.stands r
        exact hown.trans (h'.rings r b y e (hst.mono (hlive r) rfl))
      heads := fun r hmono hle => by
        obtain ⟨b, y, e, -, hst, hreach⟩ := h.stands r
        exact h'.heads r b y e (hst.mono (hlive r) rfl) hmono (hreach hmono hle)
      added := by rw [h'.added, h.added, addedLost_append, Nat.add_assoc]
      time := h.time.trans h'.time }

theorem range_before {n r : Nat} {before after : List Nat} (h : List.range n = before ++ r :: after) :
    before = List.range r := by
  have hlen : before.length < n := by
    have := congrArg List.length h
    rw [List.length_range, List.length_append, List.length_cons] at this
    omega
  have htake := congrArg (List.take before.length) h
  rw [List.take_range, List.take_left, Nat.min_eq_left hlen.le] at htake
  have hat := congrArg (fun l => l[before.length]?) h
  simp only [List.getElem?_range hlen, List.getElem?_append_right (Nat.le_refl _), Nat.sub_self,
    List.getElem?_cons_zero, Option.some.injEq] at hat
  rw [← htake, hat]

variable (env) in
omit [Accum A] in
theorem stageSource_lined (m : Merger A) (watermark : UInt64) :
    (∀ src ∈ m.stageSource watermark, Lined env src ∧ src.ring = none) ∧
      ((m.stageSource watermark).map MergeSource.ring).Nodup := by
  unfold Merger.stageSource
  split
  · exact ⟨fun _ hs => absurd hs List.not_mem_nil, List.nodup_nil⟩
  · rename_i hne
    refine ⟨fun src hsrc => ?_, List.nodup_singleton _⟩
    obtain rfl := List.mem_singleton.mp hsrc
    exact ⟨⟨⟨_, List.getElem?_eq_getElem (List.length_pos_iff.mpr hne)⟩,
      fun _ hr => absurd hr.symm (Option.some_ne_none _),
      fun _ hr => absurd hr.symm (Option.some_ne_none _)⟩, rfl⟩

variable (H env) in
/-- A pass ends, and what it consumes of each ring is handed over or counted. -/
theorem mergePass_lossy (Hm : HeapLib) (m : Merger A) (watermark : UInt64) :
    ∃ steps, Consumes env m (m.mergePass H env Hm watermark)
        (fun r => m.firstHead H env watermark r - m.ringCursor r) steps ∧
      ∃ n, ∀ limit, n ≤ limit →
        m.mergePassWithin H env Hm limit watermark = some (m.mergePass H env Hm watermark, steps) := by
  have hshared := readShared_aside H env m
  have hheads : ∀ before r after, List.range env.rings = before ++ r :: after → m.firstHead H env watermark r =
      env.head (Merger.ringSources H env watermark before
        { (m.readShared H env).1 with progressed := (m.readShared H env).2 }
        ((m.readShared H env).1.stageSource watermark)).1.time r := fun before r after heq => by
    rw [range_before heq]
    rfl
  unfold Merger.mergePass Merger.mergePassWithin
  generalize m.readShared H env = shared at hshared hheads ⊢
  obtain ⟨m₁, any⟩ := shared
  simp only at hshared hheads ⊢
  obtain ⟨new, steps, hsources, hlined, n, hopening⟩ := ringSources_lossy watermark (List.range env.rings)
    List.nodup_range { m₁ with progressed := any } (m₁.stageSource watermark) hheads
  generalize Merger.ringSources H env watermark (List.range env.rings) { m₁ with progressed := any }
    (m₁.stageSource watermark) = opened at hsources hlined hopening ⊢
  obtain ⟨m₂, sources⟩ := opened
  simp only at hsources hlined hopening ⊢
  obtain ⟨hstage, hstagenodup⟩ := stageSource_lined env m₁ watermark
  have hsome : ∀ src ∈ new, src.ring ≠ none := fun src hsrc heq => by
    obtain ⟨-, r, -, hr⟩ := hlined.lined src hsrc
    exact absurd (hr.symm.trans heq) (Option.some_ne_none r)
  have hnodup : (sources.map MergeSource.ring).Nodup := by
    rw [hsources]
    exact stage_rings_nodup (fun src hsrc => (hstage src hsrc).2) hstagenodup hsome hlined.nodup
  have hall : ∀ src ∈ sources, Lined env src := fun src hsrc => by
    rw [hsources] at hsrc
    rcases List.mem_append.mp hsrc with hsrc | hsrc
    · exact (hstage src hsrc).1
    · exact (hlined.lined src hsrc).1
  obtain ⟨steps', hdrained, n', hmerge⟩ := mergeSources_lossy (H := H) Hm watermark
    { m₂ with progressed := m₂.progressed || !sources.isEmpty } hall (rings_distinct hnodup)
  generalize Merger.mergeSources H env { m₂ with progressed := m₂.progressed || !sources.isEmpty } Hm watermark
    sources = merged at hdrained hmerge ⊢
  obtain ⟨m₃, sources'⟩ := merged
  simp only at hdrained hmerge ⊢
  refine ⟨steps ++ steps', ?_, n + n', fun limit hlimit => ?_⟩
  · rw [hsources] at hdrained
    have hdrained' : Drained env m₂ (· ∈ m₁.stageSource watermark ++ new) m₃ steps' :=
      { rings := fun r a x e hst => by
          have hown := hdrained.rings r a x e hst
          exact ⟨hown.tiles, hown.samples, hown.left⟩
        heads := hdrained.heads
        added := hdrained.added
        time := hdrained.time }
    have hopened := hlined.consumes (fun src hsrc => (hstage src hsrc).2) hdrained'
    have hquiet : Aside m₁ { m₁ with progressed := any } := ⟨⟨rfl, rfl, rfl⟩, fun _ => rfl, Nat.le_refl _⟩
    have hpass := ((hshared.trans hquiet).consumes.trans hopened).trans (eraseStage_aside sources' m₃).consumes
    simpa only [List.nil_append, List.append_nil, Nat.zero_add, Nat.add_zero, hshared.rings.cursor] using hpass
  · simp only [hopening limit [] (by omega), List.nil_append]
    simp only [hmerge limit steps (by omega)]

end Pass

end SlickPerfmon
