import SlickPerfmon.Merge.Lemmas.Loop
import SlickPerfmon.Merge.Lemmas.Shared

/-!
# A pass

What one call of `merge_pass` hands over, ring by ring and from the shared ring.
-/

namespace SlickPerfmon

open Library

/-! ## Opening the rings -/

section Open

variable {A : Type} [Accum A] (H : HeapLib) (env : World)

/-- A wait timestamp is the one of the stamp at the cursor. -/
def Waiting (m : Merger A) (r : Nat) : Prop :=
  m.ringWaitTs r = 0 ∨
    m.ringCursor r < env.head m.time r ∧ (env.log r (m.ringCursor r)).isStamp = true ∧
      (env.log r (m.ringCursor r)).timestamp = m.ringWaitTs r

/-- What a pass that stops at `stop` reads of a ring. -/
def unread (m : Merger A) (r stop : Nat) : List Sample := logFrom (env.log r) (m.ringCursor r) stop

/-- From `m` to `m'` the values in front of each ring's first stamp went to the pairer, and the rings with a stamp
below the watermark became the sources `new`. -/
structure RingsOpened (watermark : UInt64) (rs : List Nat) (m m' : Merger A) (new : List MergeSource)
    (trace : List (Option Nat × Sample)) (stops : Nat → Nat) : Prop where
  fed : Fed H m m' trace
  values : ∀ x ∈ trace, x.2.isStamp = false ∧ ∃ r ∈ rs, x.1 = some r
  others : ∀ r, r ∉ rs → m'.ringCursor r = m.ringCursor r ∧ m'.ringWaitTs r = m.ringWaitTs r
  reach : ∀ r ∈ rs, env.head m.time r ≤ stops r ∧ m.ringCursor r ≤ stops r ∧ ∀ t, m'.time ≤ t → stops r ≤ env.head t r
  handed : ∀ r ∈ rs, trace.filter (fun x => x.1 = some r) = (valuesOf (unread env m r (stops r))).map fun s => (some r, s)
  ready : ∀ src ∈ new, Ready env watermark m'.time src ∧
    ∃ r ∈ rs, src.ring = some r ∧ src.stop = some (stops r) ∧ src.rest env = fromStamp (unread env m r (stops r))
  nodup : (new.map MergeSource.ring).Nodup
  settled : ∀ r ∈ rs, (∀ src ∈ new, src.ring ≠ some r) →
    below watermark (fromStamp (unread env m r (stops r))) = [] ∧
    m'.ringCursor r + (beyond watermark (fromStamp (unread env m r (stops r)))).length = stops r ∧
    m'.ringWaitTs r = ((beyond watermark (fromStamp (unread env m r (stops r)))).head?.map Sample.timestamp).getD 0

variable {H env} {watermark : UInt64} {m m₁ m' : Merger A} {r : Nat} {rs : List Nat} {new new' : List MergeSource}
  {a b : List (Option Nat × Sample)} {stops stops' : Nat → Nat}

theorem RingsOpened.nil (m : Merger A) : RingsOpened H env watermark [] m m [] [] stops where
  fed := .refl m
  values _ hx := by cases hx
  others _ _ := ⟨rfl, rfl⟩
  reach _ hr := by cases hr
  handed _ hr := by cases hr
  ready _ hs := by cases hs
  nodup := List.nodup_nil
  settled _ hr := by cases hr

omit [Accum A] in
theorem Ready.mono {time time' : Nat} {src : MergeSource} (h : Ready env watermark time src) (hle : time ≤ time') :
    Ready env watermark time' src where
  chunk r hr := by
    obtain ⟨stop, hstop, hchunk, hreach⟩ := h.chunk r hr
    exact ⟨stop, hstop, hchunk, fun t ht => hreach t (hle.trans ht)⟩
  head := h.head

/-- Only the rings of the list are in its trace. -/
theorem RingsOpened.filter_nil (h : RingsOpened H env watermark rs m m' new a stops) (hr : r ∉ rs) :
    a.filter (fun x => x.1 = some r) = [] := by
  refine List.filter_eq_nil_iff.mpr fun x hx => ?_
  obtain ⟨-, r', hr', htag⟩ := h.values x hx
  rw [htag]
  simp only [Option.some.injEq, decide_eq_true_eq]
  rintro rfl
  exact hr hr'

theorem RingsOpened.cons (hsound : env.Sound) (hr : r ∉ rs) (h : RingsOpened H env watermark [r] m m₁ new a stops)
    (h' : RingsOpened H env watermark rs m₁ m' new' b stops') :
    RingsOpened H env watermark (r :: rs) m m' (new ++ new') (a ++ b) (Function.update stops' r (stops r)) := by
  have hself : Function.update stops' r (stops r) r = stops r := Function.update_self _ _ _
  have hother : ∀ r' ∈ rs, Function.update stops' r (stops r) r' = stops' r' := fun r' hr' =>
    Function.update_of_ne (fun heq : r' = r => hr (heq ▸ hr')) _ _
  have hkept : ∀ r' ∈ rs, m₁.ringCursor r' = m.ringCursor r' := fun r' hr' =>
    (h.others r' (fun hmem => hr (List.mem_singleton.mp hmem ▸ hr'))).1
  have hunread : ∀ r' ∈ rs, ∀ stop, unread env m₁ r' stop = unread env m r' stop := fun r' hr' stop => by
    rw [unread, unread, hkept r' hr']
  have hone : r ∈ [r] := List.mem_singleton_self r
  refine
    { fed := h.fed.trans h'.fed
      values := fun x hx => ?_
      others := fun r' hr' => ?_
      reach := fun r' hr' => ?_
      handed := fun r' hr' => ?_
      ready := fun src hsrc => ?_
      nodup := ?_
      settled := fun r' hr' hnone => ?_ }
  · rcases List.mem_append.mp hx with hx | hx
    · obtain ⟨hs, r', hr', htag⟩ := h.values x hx
      exact ⟨hs, r', List.mem_cons.mpr (Or.inl (List.mem_singleton.mp hr')), htag⟩
    · obtain ⟨hs, r', hr', htag⟩ := h'.values x hx
      exact ⟨hs, r', List.mem_cons_of_mem _ hr', htag⟩
  · have hfirst := h.others r' fun hmem => hr' (List.mem_cons.mpr (Or.inl (List.mem_singleton.mp hmem)))
    have hrest := h'.others r' fun hmem => hr' (List.mem_cons_of_mem _ hmem)
    exact ⟨hrest.1.trans hfirst.1, hrest.2.trans hfirst.2⟩
  · rcases List.mem_cons.mp hr' with rfl | hr'
    · obtain ⟨hhead, hcur, hreach⟩ := h.reach r' hone
      rw [hself]
      exact ⟨hhead, hcur, fun t ht => hreach t (h'.fed.time.trans ht)⟩
    · obtain ⟨hhead, hcur, hreach⟩ := h'.reach r' hr'
      rw [hother r' hr', ← hkept r' hr']
      exact ⟨(hsound.heads r' _ _ h.fed.time).trans hhead, hcur, hreach⟩
  · rw [List.filter_append]
    rcases List.mem_cons.mp hr' with rfl | hr'
    · rw [hself, h.handed r' hone, h'.filter_nil hr, List.append_nil]
    · rw [hother r' hr', h'.handed r' hr', hunread r' hr',
        h.filter_nil fun hmem => hr (List.mem_singleton.mp hmem ▸ hr'), List.nil_append]
  · rcases List.mem_append.mp hsrc with hsrc | hsrc
    · obtain ⟨hready, r', hr', hring, hstop, hrest⟩ := h.ready src hsrc
      obtain rfl := List.mem_singleton.mp hr'
      exact ⟨hready.mono h'.fed.time, r', List.mem_cons_self, hring, by rw [hself]; exact hstop,
        by rw [hself]; exact hrest⟩
    · obtain ⟨hready, r', hr', hring, hstop, hrest⟩ := h'.ready src hsrc
      exact ⟨hready, r', List.mem_cons_of_mem _ hr', hring, by rw [hother r' hr']; exact hstop,
        by rw [hother r' hr', ← hunread r' hr']; exact hrest⟩
  · rw [List.map_append]
    refine List.nodup_append.mpr ⟨h.nodup, h'.nodup, fun x hx y hy hxy => ?_⟩
    obtain ⟨src, hsrc, rfl⟩ := List.mem_map.mp hx
    obtain ⟨src', hsrc', rfl⟩ := List.mem_map.mp hy
    obtain ⟨-, r₁, hr₁, hring, -⟩ := h.ready src hsrc
    obtain ⟨-, r₂, hr₂, hring', -⟩ := h'.ready src' hsrc'
    obtain rfl := List.mem_singleton.mp hr₁
    rw [hring, hring'] at hxy
    cases hxy
    exact hr hr₂
  · rcases List.mem_cons.mp hr' with rfl | hr'
    · obtain ⟨hcur, hwait⟩ := h'.others r' hr
      rw [hself, hcur, hwait]
      exact h.settled r' hone fun src hsrc => hnone src (List.mem_append_left _ hsrc)
    · rw [hother r' hr', ← hunread r' hr']
      exact h'.settled r' hr' fun src hsrc => hnone src (List.mem_append_right _ hsrc)

/-- The front of a ring that waits on a stamp at or past the watermark. -/
theorem RingsOpened.waits (hwait : Waiting env m r) (hsound : env.Sound) (hpos : 0 < watermark)
    (hlate : watermark ≤ m.ringWaitTs r) :
    RingsOpened H env watermark [r] m m [] [] fun r => env.head m.time r := by
  have hne : m.ringWaitTs r ≠ 0 := fun hzero => by
    rw [hzero] at hlate
    exact UInt64.not_lt.mpr hlate hpos
  obtain hzero | ⟨hlt, hstamp, hts⟩ := hwait
  · exact absurd hzero hne
  have hcons : unread env m r (env.head m.time r) =
      env.log r (m.ringCursor r) :: logFrom (env.log r) (m.ringCursor r + 1) (env.head m.time r) := logFrom_cons hlt
  have hvals : valuesOf (unread env m r (env.head m.time r)) = [] := by simp [hcons, valuesOf, hstamp]
  have hfrom : fromStamp (unread env m r (env.head m.time r)) = unread env m r (env.head m.time r) := by
    have := valuesOf_append_fromStamp (unread env m r (env.head m.time r))
    rwa [hvals] at this
  have hhead : ∀ s, (unread env m r (env.head m.time r)).head? = some s → s.isStamp = true ∧ watermark ≤ s.timestamp := by
    intro s hs
    rw [hcons] at hs
    cases hs
    exact ⟨hstamp, by rw [hts]; exact hlate⟩
  obtain ⟨hbelow, hbeyond⟩ := below_of_head (fun s hs => (hhead s hs).1) fun s hs => (hhead s hs).2
  refine
    { fed := .refl m
      values := fun _ hx => by cases hx
      others := fun _ _ => ⟨rfl, rfl⟩
      reach := fun r' hr' => ?_
      handed := fun r' hr' => ?_
      ready := fun _ hs => by cases hs
      nodup := List.nodup_nil
      settled := fun r' hr' _ => ?_ }
  all_goals obtain rfl := List.mem_singleton.mp hr'
  · exact ⟨Nat.le_refl _, Nat.le_of_lt hlt, fun t ht => hsound.heads r' _ _ ht⟩
  · rw [hvals]
    rfl
  · rw [hfrom, hbelow, hbeyond]
    refine ⟨rfl, ?_, ?_⟩
    · rw [unread, length_logFrom]
      omega
    · rw [hcons, ← hts]
      rfl

/-- A ring that is read: its source, if it has a stamp below the watermark. -/
theorem RingsOpened.reads (hsound : env.Sound) (hcur : m.ringCursor r ≤ env.head m.time r)
    (hlost : (m.nextStamp H env watermark ⟨[], 0, m.ringCursor r, none, some r⟩).1.ringLost = m.ringLost) :
    ∃ new trace, RingsOpened H env watermark [r] m
        (m.nextStamp H env watermark ⟨[], 0, m.ringCursor r, none, some r⟩).1 new trace (fun r => env.head m.time r) ∧
      new = if (m.nextStamp H env watermark ⟨[], 0, m.ringCursor r, none, some r⟩).2.2 then
        [(m.nextStamp H env watermark ⟨[], 0, m.ringCursor r, none, some r⟩).2.1] else [] := by
  have hchunk : RingChunk env r (env.head m.time r) ⟨[], 0, m.ringCursor r, none, some r⟩ :=
    ⟨rfl, Or.inr ⟨rfl, rfl⟩, Nat.le_refl _, (logFrom_eq_nil (Nat.le_refl _)).symm, hcur⟩
  have hmoved := nextStamp_ring H env watermark m hchunk (fun _ => rfl) (fun t ht => hsound.heads r _ _ ht) hlost
  simp only [Nat.add_zero] at hmoved
  change RingMoved H env watermark r (env.head m.time r) (unread env m r (env.head m.time r)) m _ at hmoved
  generalize m.nextStamp H env watermark ⟨[], 0, m.ringCursor r, none, some r⟩ = out at hmoved
  obtain ⟨m', src, more⟩ := out
  refine ⟨_, _,
    { fed := hmoved.fed
      values := fun x hx => ?_
      others := fun r' hr' => hmoved.others r' fun heq => hr' (by cases heq; exact List.mem_singleton_self r)
      reach := fun r' hr' => ?_
      handed := fun r' hr' => ?_
      ready := fun src' hsrc' => ?_
      nodup := ?_
      settled := fun r' hr' hnone => ?_ }, rfl⟩
  · obtain ⟨s, hs, rfl⟩ := List.mem_map.mp hx
    exact ⟨value_of_mem hs, r, List.mem_singleton_self r, rfl⟩
  · obtain rfl := List.mem_singleton.mp hr'
    exact ⟨Nat.le_refl _, hcur, fun t ht => hsound.heads r' _ _ (hmoved.fed.time.trans ht)⟩
  · obtain rfl := List.mem_singleton.mp hr'
    refine List.filter_eq_self.mpr fun x hx => ?_
    obtain ⟨s, -, rfl⟩ := List.mem_map.mp hx
    simp
  · cases more with
    | false => cases hsrc'
    | true =>
        obtain rfl := List.mem_singleton.mp hsrc'
        obtain ⟨s, hs, hlt, hat⟩ := hmoved.more rfl
        have hring : src'.ring = some r := hmoved.chunk.ring
        have hstop : src'.stop = some (env.head m.time r) := hmoved.stopped
        have hrest : src'.rest env = fromStamp (unread env m r (env.head m.time r)) := by
          rw [MergeSource.rest, hring, hstop]
          exact hmoved.front
        refine ⟨⟨fun r' hr' => ?_, s, by rw [hrest]; exact hs, isStamp_of_head hs, hlt, hat⟩, r,
          List.mem_singleton_self r, hring, hstop, hrest⟩
        cases hring.symm.trans hr'
        exact ⟨_, hstop, hmoved.chunk, fun t ht => hsound.heads r _ _ (hmoved.fed.time.trans ht)⟩
  · cases more with
    | false => exact List.nodup_nil
    | true => exact List.nodup_singleton _
  · obtain rfl := List.mem_singleton.mp hr'
    cases more with
    | true => exact absurd hmoved.chunk.ring (hnone src (List.mem_singleton_self src))
    | false =>
        obtain ⟨hge, hcur', hwait⟩ := hmoved.done rfl
        obtain ⟨hbelow, hbeyond⟩ := below_of_head (fun s => isStamp_of_head) hge
        have hlen := congrArg List.length hmoved.front
        rw [length_logFrom] at hlen
        have hreach := hmoved.chunk.reach
        have hpos := hmoved.chunk.pos
        rw [hbelow, hbeyond]
        refine ⟨rfl, ?_, hwait⟩
        simp only at hcur' hlen hreach hpos ⊢
        omega

variable (H env) in
theorem readsOn_ringSources (watermark : UInt64) (rs : List Nat) (m : Merger A) (sources : List MergeSource) :
    ReadsOn env m (Merger.ringSources H env watermark rs m sources).1 := by
  induction rs generalizing m sources with
  | nil => exact .quiet rfl rfl
  | cons r rs ih =>
      have hnext := readsOn_nextStamp H env watermark m ⟨[], 0, m.ringCursor r, none, some r⟩
      rw [Merger.ringSources]
      split
      · exact ih m sources
      · generalize m.nextStamp H env watermark ⟨[], 0, m.ringCursor r, none, some r⟩ = out at hnext ⊢
        obtain ⟨m', src, more⟩ := out
        cases more with
        | true => exact hnext.trans (ih m' _)
        | false => exact hnext.trans (ih m' _)

variable (H watermark) in
theorem ringSources_spec (hsound : env.Sound) (hpos : 0 < watermark) (rs : List Nat) (hnodup : rs.Nodup)
    (m : Merger A) (sources : List MergeSource) (hcur : ∀ r ∈ rs, m.ringCursor r ≤ env.head m.time r)
    (hwait : ∀ r ∈ rs, Waiting env m r)
    (hlost : (Merger.ringSources H env watermark rs m sources).1.ringLost = m.ringLost) :
    ∃ m' new trace stops, Merger.ringSources H env watermark rs m sources = (m', sources ++ new) ∧
      RingsOpened H env watermark rs m m' new trace stops := by
  induction rs generalizing m sources with
  | nil => exact ⟨m, [], [], fun _ => 0, by rw [Merger.ringSources, List.append_nil], .nil m⟩
  | cons r rs ih =>
      obtain ⟨hr, hnodup⟩ := List.nodup_cons.mp hnodup
      have hrest : ∀ m₁ : Merger A, m.time ≤ m₁.time →
          (∀ r', r' ∉ [r] → m₁.ringCursor r' = m.ringCursor r' ∧ m₁.ringWaitTs r' = m.ringWaitTs r') →
          (∀ r' ∈ rs, m₁.ringCursor r' ≤ env.head m₁.time r') ∧ ∀ r' ∈ rs, Waiting env m₁ r' := by
        intro m₁ ht hothers
        have hmono := fun r' => hsound.heads r' _ _ ht
        have hkept : ∀ r' ∈ rs, m₁.ringCursor r' = m.ringCursor r' ∧ m₁.ringWaitTs r' = m.ringWaitTs r' :=
          fun r' hr' => hothers r' fun hmem => hr (List.mem_singleton.mp hmem ▸ hr')
        refine ⟨fun r' hr' => ?_, fun r' hr' => ?_⟩
        · rw [(hkept r' hr').1]
          exact (hcur r' (List.mem_cons_of_mem _ hr')).trans (hmono r')
        · unfold Waiting
          rw [(hkept r' hr').1, (hkept r' hr').2]
          refine (hwait r' (List.mem_cons_of_mem _ hr')).imp_right fun hw => ⟨hw.1.trans_le (hmono r'), hw.2⟩
      rw [Merger.ringSources] at hlost ⊢
      by_cases hlate : m.ringWaitTs r ≥ watermark
      · rw [if_pos hlate] at hlost ⊢
        have hone := RingsOpened.waits (H := H) (hwait r List.mem_cons_self) hsound hpos hlate
        obtain ⟨hcur', hwait'⟩ := hrest m (Nat.le_refl _) hone.others
        obtain ⟨m', new, trace, stops, heq, hopened⟩ := ih hnodup m sources hcur' hwait' hlost
        exact ⟨m', _, _, _, heq, hone.cons hsound hr hopened⟩
      · rw [if_neg hlate] at hlost ⊢
        have hle := (readsOn_nextStamp H env watermark m ⟨[], 0, m.ringCursor r, none, some r⟩).lost
        have hkept : (m.nextStamp H env watermark ⟨[], 0, m.ringCursor r, none, some r⟩).1.ringLost = m.ringLost := by
          refine Nat.le_antisymm ?_ hle
          rw [← hlost]
          generalize m.nextStamp H env watermark ⟨[], 0, m.ringCursor r, none, some r⟩ = out
          obtain ⟨m', src, more⟩ := out
          cases more with
          | true => exact (readsOn_ringSources H env watermark rs m' _).lost
          | false => exact (readsOn_ringSources H env watermark rs m' _).lost
        obtain ⟨new₁, trace₁, hone, hnew⟩ := RingsOpened.reads hsound (hcur r List.mem_cons_self) hkept
        generalize m.nextStamp H env watermark ⟨[], 0, m.ringCursor r, none, some r⟩ = out at hlost hkept hone hnew ⊢
        obtain ⟨m₁, src, more⟩ := out
        obtain ⟨hcur', hwait'⟩ := hrest m₁ hone.fed.time hone.others
        cases more with
        | true =>
            obtain ⟨m', new, trace, stops, heq, hopened⟩ :=
              ih hnodup m₁ (sources ++ [src]) hcur' hwait' (hlost.trans hkept.symm)
            subst hnew
            exact ⟨m', _, _, _, by rw [List.append_assoc] at heq; exact heq, hone.cons hsound hr hopened⟩
        | false =>
            obtain ⟨m', new, trace, stops, heq, hopened⟩ := ih hnodup m₁ sources hcur' hwait' (hlost.trans hkept.symm)
            subst hnew
            exact ⟨m', _, _, _, heq, hone.cons hsound hr hopened⟩

end Open

/-! ## The merge of what was opened -/

section Lanes

variable {A : Type} [Accum A] {H : HeapLib} {env : World} {watermark : UInt64} {m : Merger A}
  {sources : List MergeSource} {out : Merger A × List MergeSource} {trace : List (Option Nat × Sample)}

theorem rings_distinct (h : (sources.map MergeSource.ring).Nodup) :
    ∀ (i j : Nat) (a b : MergeSource), sources[i]? = some a → sources[j]? = some b → a.ring = b.ring → i = j := by
  intro i j a b ha hb hab
  have hi : i < (sources.map MergeSource.ring).length := by
    rw [List.length_map]
    exact (List.getElem?_eq_some_iff.mp ha).1
  refine (List.getElem?_inj hi h).mp ?_
  rw [List.getElem?_map, List.getElem?_map, ha, hb]
  exact congrArg some hab

omit [Accum A] in
/-- The staged stamps and the rings of a pass. -/
theorem stage_rings_nodup {stage new : List MergeSource} (hstage : ∀ src ∈ stage, src.ring = none)
    (hone : (stage.map MergeSource.ring).Nodup) (hnew : ∀ src ∈ new, src.ring ≠ none)
    (hnodup : (new.map MergeSource.ring).Nodup) : ((stage ++ new).map MergeSource.ring).Nodup := by
  rw [List.map_append]
  refine List.nodup_append.mpr ⟨hone, hnodup, fun x hx y hy hxy => ?_⟩
  obtain ⟨src, hsrc, rfl⟩ := List.mem_map.mp hx
  obtain ⟨src', hsrc', rfl⟩ := List.mem_map.mp hy
  exact hnew src' hsrc' (hxy.symm.trans (hstage src hsrc))

/-- What a merge hands over of one of its sources. -/
theorem Merged.filter (h : Merged H env watermark m sources out trace) (hnodup : (sources.map MergeSource.ring).Nodup)
    {src : MergeSource} (hsrc : src ∈ sources) :
    trace.filter (fun x => x.1 = src.ring) = laneOf env watermark src := by
  obtain ⟨i, hi⟩ := List.mem_iff_getElem?.mp hsrc
  refine h.lanes.filter (i := i) (by rw [List.getElem?_map, hi]; rfl) (fun x hx => ?_) fun j l hj hl x hx => ?_
  · obtain ⟨s, -, rfl⟩ := List.mem_map.mp hx
    simp
  · rw [List.getElem?_map, Option.map_eq_some_iff] at hl
    obtain ⟨a, ha, rfl⟩ := hl
    obtain ⟨s, -, rfl⟩ := List.mem_map.mp hx
    simp only [decide_eq_false_iff_not]
    exact fun heq => hj (rings_distinct hnodup j i a src ha hi heq)

theorem Merged.filter_nil (h : Merged H env watermark m sources out trace) {ring : Option Nat}
    (hring : ∀ src ∈ sources, src.ring ≠ ring) : trace.filter (fun x => x.1 = ring) = [] := by
  refine List.filter_eq_nil_iff.mpr fun x hx => ?_
  obtain ⟨l, hl, hxl⟩ := h.lanes.mem hx
  obtain ⟨src, hsrc, rfl⟩ := List.mem_map.mp hl
  obtain ⟨s, -, rfl⟩ := List.mem_map.mp hxl
  simpa using hring src hsrc

/-- Everything a merge hands over comes from a source, and no stamp of it is at or past the watermark. -/
theorem Merged.early (h : Merged H env watermark m sources out trace) {x : Option Nat × Sample} (hx : x ∈ trace) :
    (∃ src ∈ sources, x.1 = src.ring) ∧ (x.2.isStamp = true → x.2.timestamp < watermark) := by
  obtain ⟨l, hl, hxl⟩ := h.lanes.mem hx
  obtain ⟨src, hsrc, rfl⟩ := List.mem_map.mp hl
  obtain ⟨s, hs, rfl⟩ := List.mem_map.mp hxl
  refine ⟨⟨src, hsrc, rfl⟩, fun hstamp => ?_⟩
  have := List.mem_takeWhile_imp hs
  simpa [hstamp] using this

end Lanes

/-! ## The pass -/

section Pass

variable {A : Type} [Accum A] (H : HeapLib) (env : World)

/-- A pass, as ring `r` sees it. -/
structure RingPassed (watermark : UInt64) (m m' : Merger A) (trace : List (Option Nat × Sample)) (r : Nat) :
    Prop where
  handed : trace.filter (fun x => x.1 = some r) =
    (logFrom (env.log r) (m.ringCursor r) (m'.ringCursor r)).map fun s => (some r, s)
  moved : m.ringCursor r ≤ m'.ringCursor r
  within : m'.ringCursor r ≤ env.head m'.time r
  waiting : Waiting env m' r
  reached : env.head m.time r ≤ m'.ringCursor r ∨
    m'.ringCursor r < env.head m'.time r ∧ (env.log r (m'.ringCursor r)).isStamp = true ∧
      watermark ≤ (env.log r (m'.ringCursor r)).timestamp

/-- A pass, as the shared ring sees it. -/
structure SharedPassed (watermark : UInt64) (m m' : Merger A) (trace : List (Option Nat × Sample)) (n : Nat) :
    Prop where
  balance : (((trace.filter fun x => x.1 = none).map Prod.snd) ++ m'.sharedStage).Perm
    (m.sharedStage ++ logFrom env.slot m.cursor (m.cursor + n))
  staged : Staged m'.sharedStage
  late : ∀ s ∈ m'.sharedStage, watermark ≤ s.timestamp
  taken : m'.taken = m.taken ++ List.range' m.cursor n
  cursor : m'.cursor = m.cursor + n ∧ m'.skipped = m.skipped ∨
    n = 0 ∧ m'.cursor = m.cursor + 1 ∧ m'.skipped = m.skipped ++ [m.cursor] ∧ ¬env.Published m.time m.cursor
  published : ∀ k, m.cursor ≤ k → k < m.cursor + n → env.Published m'.time k
  complete : ∀ k, m.cursor ≤ k → k < m.cursor + env.queueCapacity →
    (∀ j, m.cursor ≤ j → j ≤ k → env.Published m.time j) → k < m.cursor + n

/-- What a pass does: it hands over `trace`. -/
structure Passed (watermark : UInt64) (m m' : Merger A) (trace : List (Option Nat × Sample)) (n : Nat) : Prop where
  hands : HandsOver H m m' trace
  time : m.time ≤ m'.time
  order : InOrder trace
  early : ∀ x ∈ trace, x.2.isStamp = true → x.2.timestamp < watermark
  sources : ∀ x ∈ trace, ∀ r, x.1 = some r → r < env.rings
  rings : ∀ r, r < env.rings → RingPassed env watermark m m' trace r
  shared : SharedPassed env watermark m m' trace n

variable {H env} {watermark : UInt64} {m : Merger A}

/-- Where a pass leaves a ring's cursor, once what is beyond the watermark is known. -/
theorem logFrom_of_beyond {log : Nat → Sample} {c c' stop : Nat} (hle : c ≤ stop)
    (h : c' + (beyond watermark (logFrom log c stop)).length = stop) :
    c ≤ c' ∧ below watermark (logFrom log c stop) = logFrom log c c' ∧
      beyond watermark (logFrom log c stop) = logFrom log c' stop := by
  have hsplit := below_append_beyond watermark (logFrom log c stop)
  have hlen := congrArg List.length hsplit
  rw [List.length_append, length_logFrom] at hlen
  have hcc : c ≤ c' := by omega
  refine ⟨hcc, List.append_inj ?_ ?_⟩
  · rw [hsplit, logFrom_append hcc (by omega)]
  · rw [length_logFrom]
    omega

theorem beyond_head {l : List Sample} {s : Sample} (h : (beyond watermark l).head? = some s) :
    s.isStamp = true ∧ watermark ≤ s.timestamp := by
  have := List.head?_dropWhile_not (fun s : Sample => !s.isStamp || decide (s.timestamp < watermark)) l
  unfold beyond at h
  rw [h] at this
  simpa using this

variable (env watermark) in
omit [Accum A] in
/-- The source the stage gives a pass. -/
theorem stageSource_spec (hstage : Staged m.sharedStage) :
    ∃ data, data = m.sharedStage.takeWhile (fun s => s.timestamp < watermark) ∧
      (data = [] ∧ m.stageSource watermark = [] ∨
        data ≠ [] ∧ m.stageSource watermark = [⟨data, 0, 0, none, none⟩]) ∧
      (∀ src ∈ m.stageSource watermark, src.ring = none ∧ src.pos = 0 ∧ src.data = data ∧ Ascending data ∧
        below watermark data = data ∧ beyond watermark data = [] ∧ ∀ t, Ready env watermark t src) := by
  refine ⟨_, rfl, ?_, fun src hsrc => ?_⟩
  · unfold Merger.stageSource
    split
    · rename_i hnil
      exact Or.inl ⟨hnil, rfl⟩
    · rename_i hne
      exact Or.inr ⟨fun hnil => hne hnil, rfl⟩
  · have hsub := List.takeWhile_sublist (l := m.sharedStage) fun s : Sample => decide (s.timestamp < watermark)
    have hlt : ∀ s ∈ m.sharedStage.takeWhile (fun s => s.timestamp < watermark), s.timestamp < watermark :=
      fun s hs => by simpa using List.mem_takeWhile_imp hs
    have hall : ∀ s ∈ m.sharedStage.takeWhile (fun s => s.timestamp < watermark),
        (!s.isStamp || decide (s.timestamp < watermark)) = true := fun s hs => by simp [hlt s hs]
    have hbelow : below watermark (m.sharedStage.takeWhile fun s => s.timestamp < watermark) =
        m.sharedStage.takeWhile fun s => s.timestamp < watermark := List.takeWhile_eq_self_iff.mpr hall
    have hbeyond : beyond watermark (m.sharedStage.takeWhile fun s => s.timestamp < watermark) = [] :=
      List.dropWhile_eq_nil_iff.mpr hall
    have hasc : Ascending (m.sharedStage.takeWhile fun s => s.timestamp < watermark) :=
      (hstage.sorted.sublist hsub).sublist List.filter_sublist
    unfold Merger.stageSource at hsrc
    split at hsrc
    · cases hsrc
    · rename_i hne
      obtain rfl := List.mem_singleton.mp hsrc
      obtain ⟨s, tl, hcons⟩ := List.exists_cons_of_ne_nil fun hnil => hne hnil
      have hmem : s ∈ m.sharedStage.takeWhile fun s => s.timestamp < watermark := by
        rw [hcons]
        exact List.mem_cons_self
      refine ⟨rfl, rfl, rfl, hasc, hbelow, hbeyond, fun t => ⟨(fun r hr => by cases hr), s, ?_,
        hstage.stamps s (hsub.subset hmem), hlt s hmem, ?_⟩⟩
      · simp only [MergeSource.rest, List.drop_zero, hcons, List.head?_cons]
      · simp only [hcons, List.getElem?_cons_zero]

omit [Accum A] in
theorem eraseStage_rings {sources : List MergeSource} (h : ∀ src ∈ sources, src.ring ≠ none) :
    sources.foldl Merger.eraseStage m = m := by
  induction sources with
  | nil => rfl
  | cons src sources ih =>
      obtain ⟨r, hr⟩ := Option.ne_none_iff_exists'.mp (h src List.mem_cons_self)
      have hsame : m.eraseStage src = m := by
        unfold Merger.eraseStage
        rw [hr]
      rw [List.foldl_cons, hsame]
      exact ih fun src hsrc => h src (List.mem_cons_of_mem _ hsrc)

/-- The merge consumes the whole of the stage below the watermark. -/
theorem eraseStage_spec {m₂ m₃ : Merger A} {new sources' : List MergeSource} {trace : List (Option Nat × Sample)}
    (hstage : Staged m.sharedStage) (hnew : ∀ src ∈ new, src.ring ≠ none)
    (h : Merged H env watermark m₂ (m.stageSource watermark ++ new) (m₃, sources') trace)
    (hkept : m₃.sharedStage = m.sharedStage) :
    ∃ p, sources'.foldl Merger.eraseStage m₃ =
      { m₃ with
        sharedStage := m.sharedStage.dropWhile fun s => s.timestamp < watermark
        progressed := p } := by
  obtain ⟨data, hdata, hcase, hsrc⟩ := stageSource_spec env watermark hstage
  have hsplit := List.takeWhile_append_dropWhile (p := fun s : Sample => decide (s.timestamp < watermark))
    (l := m.sharedStage)
  rw [← hdata] at hsplit
  have hring : ∀ (i : Nat) (src' : MergeSource), sources'[i]? = some src' →
      ∃ src, (m.stageSource watermark ++ new)[i]? = some src ∧ src'.ring = src.ring := by
    intro i src' hi
    have hlt : i < (m.stageSource watermark ++ new).length := by
      rw [← h.length]
      exact (List.getElem?_eq_some_iff.mp hi).1
    obtain ⟨src'', hi'', hr, -⟩ := h.sources i _ (List.getElem?_eq_getElem hlt)
    cases hi.symm.trans hi''
    exact ⟨_, List.getElem?_eq_getElem hlt, hr⟩
  rcases hcase with ⟨hnil, hnone⟩ | ⟨-, hone⟩
  · rw [hnone, List.nil_append] at hring
    refine ⟨m₃.progressed, ?_⟩
    rw [eraseStage_rings]
    · rw [hnil, List.nil_append] at hsplit
      rw [hsplit, ← hkept]
    · intro src' hsrc'
      obtain ⟨i, hi⟩ := List.mem_iff_getElem?.mp hsrc'
      obtain ⟨src, hi', hr⟩ := hring i src' hi
      rw [hr]
      exact hnew src (List.mem_of_getElem? hi')
  · obtain ⟨-, -, -, -, -, hbeyond, -⟩ := hsrc ⟨data, 0, 0, none, none⟩ (by rw [hone]; exact List.mem_singleton_self _)
    rw [hone, List.singleton_append] at h hring
    obtain ⟨src', hi, hr, hdone⟩ := h.sources 0 _ rfl
    obtain ⟨hd, hdrop, hpos⟩ := hdone rfl
    obtain ⟨tl, rfl⟩ : ∃ tl, sources' = src' :: tl := by
      cases sources' with
      | nil => cases hi
      | cons x tl =>
          cases hi
          exact ⟨tl, rfl⟩
    have hall : src'.pos = data.length := by
      rw [List.drop_zero, hbeyond, List.drop_eq_nil_iff, hd] at hdrop
      rw [hd] at hpos
      exact Nat.le_antisymm hpos hdrop
    have hrest : m.sharedStage.drop data.length = m.sharedStage.dropWhile fun s => s.timestamp < watermark := by
      conv_lhs => rw [← hsplit]
      exact List.drop_left
    refine ⟨true, ?_⟩
    rw [List.foldl_cons, eraseStage_rings]
    · unfold Merger.eraseStage
      rw [hr]
      simp only
      rw [hkept, hall, hrest]
    · intro a ha
      obtain ⟨i, hi'⟩ := List.mem_iff_getElem?.mp ha
      obtain ⟨src, hi'', hra⟩ := hring (i + 1) a (by rw [List.getElem?_cons_succ]; exact hi')
      rw [hra]
      rw [List.getElem?_cons_succ] at hi''
      exact hnew src (List.mem_of_getElem? hi'')

omit [Accum A] in
theorem eraseStage_kept (sources : List MergeSource) (m : Merger A) :
    (sources.foldl Merger.eraseStage m).ringLost = m.ringLost ∧
      (sources.foldl Merger.eraseStage m).reads = m.reads := by
  induction sources generalizing m with
  | nil => exact ⟨rfl, rfl⟩
  | cons src sources ih =>
      obtain ⟨hlost, hreads⟩ := ih (m.eraseStage src)
      rw [List.foldl_cons, hlost, hreads]
      unfold Merger.eraseStage
      split
      · exact ⟨rfl, rfl⟩
      · exact ⟨rfl, rfl⟩

theorem readsOn_mergeSources (Hm : HeapLib) (sources : List MergeSource) (m : Merger A) :
    ReadsOn env m (m.mergeSources H env Hm watermark sources).1 := by
  rw [mergeSources_eq_mergeLoop]
  exact readsOn_mergeLoop H env Hm watermark _ 0 m sources _

variable (H env) in
/-- Where no ring is lapped at a read of the pass, nothing is lost in it. -/
theorem readsOn_mergePass (Hm : HeapLib) (watermark : UInt64) (m : Merger A) :
    ReadsOn env m (m.mergePass H env Hm watermark) := by
  obtain ⟨hlost, hreads⟩ := readShared_rings H env m
  unfold Merger.mergePass
  generalize m.readShared H env = out at hlost hreads ⊢
  obtain ⟨m₁, any⟩ := out
  simp only at hlost hreads ⊢
  have hopen := readsOn_ringSources H env watermark (List.range env.rings) { m₁ with progressed := any }
    (m₁.stageSource watermark)
  generalize Merger.ringSources H env watermark (List.range env.rings) { m₁ with progressed := any }
    (m₁.stageSource watermark) = opened at hopen ⊢
  obtain ⟨m₂, sources⟩ := opened
  simp only at hopen ⊢
  have hfirst : ReadsOn env m { m₁ with progressed := any } := .quiet hreads hlost
  have hmark : ReadsOn env m₂ { m₂ with progressed := m₂.progressed || !sources.isEmpty } := .quiet rfl rfl
  generalize { m₂ with progressed := m₂.progressed || !sources.isEmpty } = m₃ at hmark ⊢
  have hmerge : ReadsOn env m₃ (Merger.mergeSources H env m₃ Hm watermark sources).1 :=
    readsOn_mergeSources Hm sources m₃
  obtain ⟨herased, hkept⟩ := eraseStage_kept (Merger.mergeSources H env m₃ Hm watermark sources).2
    (Merger.mergeSources H env m₃ Hm watermark sources).1
  exact (((hfirst.trans hopen).trans hmark).trans hmerge).trans (.quiet hkept herased)

/-- The sources of a pass, and what the merge of them leaves of each ring. -/
theorem RingsOpened.merged {m₂ m₃ : Merger A} {new stage sources' : List MergeSource} {rs : List Nat}
    {a b : List (Option Nat × Sample)} {stops : Nat → Nat} (h : RingsOpened H env watermark rs m m₂ new a stops)
    (hstage : ∀ src ∈ stage, src.ring = none) (hnodup : ((stage ++ new).map MergeSource.ring).Nodup)
    (hmerged : Merged H env watermark m₂ (stage ++ new) (m₃, sources') b) {r : Nat} (hr : r ∈ rs) :
    (a ++ b).filter (fun x => x.1 = some r) =
      (below watermark (unread env m r (stops r))).map (fun s => (some r, s)) ∧
    m₃.ringCursor r + (beyond watermark (unread env m r (stops r))).length = stops r ∧
    m₃.ringWaitTs r = ((beyond watermark (unread env m r (stops r))).head?.map Sample.timestamp).getD 0 := by
  obtain ⟨hbelow, hbeyond⟩ := below_split watermark (unread env m r (stops r))
  rw [List.filter_append, h.handed r hr, hbelow, hbeyond, List.map_append]
  by_cases hin : ∃ src ∈ new, src.ring = some r
  · obtain ⟨src, hsrc, hring⟩ := hin
    have hmem : src ∈ stage ++ new := List.mem_append_right _ hsrc
    obtain ⟨-, r', -, hring', hstop, hrest⟩ := h.ready src hsrc
    cases hring.symm.trans hring'
    have hfilter := hmerged.filter hnodup hmem
    have hex := hmerged.exhausted src hmem r hring
    rw [hrest, hstop, Option.getD_some] at hex
    rw [laneOf, hrest, hring] at hfilter
    rw [hfilter]
    exact ⟨rfl, hex⟩
  · have hnone : ∀ src ∈ new, src.ring ≠ some r := fun src hsrc hring => hin ⟨src, hsrc, hring⟩
    have hall : ∀ src ∈ stage ++ new, src.ring ≠ some r := fun src hsrc hring => by
      rcases List.mem_append.mp hsrc with hsrc | hsrc
      · rw [hstage src hsrc] at hring
        cases hring
      · exact hnone src hsrc hring
    obtain ⟨hnil, hcur, hwait⟩ := h.settled r hr hnone
    obtain ⟨hcur', hwait'⟩ := hmerged.others r hall
    rw [hmerged.filter_nil hall, hnil, List.map_nil, hcur', hwait']
    exact ⟨rfl, hcur, hwait⟩

omit [Accum A] in
/-- Ring `r` after a pass whose first look at it found `stop`. -/
theorem RingPassed.of_beyond {m' : Merger A} {trace : List (Option Nat × Sample)} {r stop : Nat}
    (hle : m.ringCursor r ≤ stop) (hhead : env.head m.time r ≤ stop) (hreach : stop ≤ env.head m'.time r)
    (hhanded : trace.filter (fun x => x.1 = some r) =
      (below watermark (unread env m r stop)).map fun s => (some r, s))
    (hcur : m'.ringCursor r + (beyond watermark (unread env m r stop)).length = stop)
    (hwait : m'.ringWaitTs r = ((beyond watermark (unread env m r stop)).head?.map Sample.timestamp).getD 0) :
    RingPassed env watermark m m' trace r := by
  obtain ⟨hmoved, hbelow, hbeyond⟩ := logFrom_of_beyond hle hcur
  have hstop : m'.ringCursor r ≤ stop := by omega
  rw [unread, hbelow] at hhanded
  rw [unread] at hwait
  have hcase : m'.ringCursor r = stop ∧ m'.ringWaitTs r = 0 ∨
      m'.ringCursor r < stop ∧ (env.log r (m'.ringCursor r)).isStamp = true ∧
        watermark ≤ (env.log r (m'.ringCursor r)).timestamp ∧
        m'.ringWaitTs r = (env.log r (m'.ringCursor r)).timestamp := by
    rcases Nat.lt_or_ge (m'.ringCursor r) stop with hlt | hge
    · have hhead' : (beyond watermark (logFrom (env.log r) (m.ringCursor r) stop)).head? =
          some (env.log r (m'.ringCursor r)) := by
        rw [hbeyond, logFrom_cons hlt]
        rfl
      obtain ⟨hstamp, hlate⟩ := beyond_head hhead'
      rw [hhead'] at hwait
      exact Or.inr ⟨hlt, hstamp, hlate, hwait⟩
    · refine Or.inl ⟨Nat.le_antisymm hstop hge, ?_⟩
      rw [hwait, hbeyond, logFrom_eq_nil hge]
      rfl
  exact
    { handed := hhanded
      moved := hmoved
      within := hstop.trans hreach
      waiting := hcase.imp And.right fun h => ⟨h.1.trans_le hreach, h.2.1, h.2.2.2.symm⟩
      reached := hcase.imp (fun h => by rw [h.1]; exact hhead) fun h => ⟨h.1.trans_le hreach, h.2.1, h.2.2.1⟩ }

theorem SharedRead.sharedPassed {m₁ m' : Merger A} {n : Nat} {a b : List (Option Nat × Sample)}
    (hsound : env.Sound) (h : SharedRead H env m m₁ n) (hstage : Staged m.sharedStage)
    (ha : a.filter (fun x => x.1 = none) = [])
    (hb : b.filter (fun x => x.1 = none) =
      (m₁.sharedStage.takeWhile fun s => s.timestamp < watermark).map fun s => (none, s))
    (hstage' : m'.sharedStage = m₁.sharedStage.dropWhile fun s => s.timestamp < watermark)
    (htime : m₁.time ≤ m'.time) (hcursor : m'.cursor = m₁.cursor) (htaken : m'.taken = m₁.taken ∧ m'.skipped = m₁.skipped) :
    SharedPassed env watermark m m' (sharedValues (logFrom env.slot m.cursor (m.cursor + n)) ++ (a ++ b)) n := by
  have hstaged := h.slots.staged hstage
  have hsub := List.dropWhile_sublist (l := m₁.sharedStage) fun s : Sample => decide (s.timestamp < watermark)
  set slots := logFrom env.slot m.cursor (m.cursor + n) with hslots
  have hvalues : (sharedValues slots).filter (fun x => x.1 = none) = sharedValues slots := by
    refine List.filter_eq_self.mpr fun x hx => ?_
    obtain ⟨s, -, rfl⟩ := List.mem_map.mp hx
    rfl
  have hsnd : (sharedValues slots).map Prod.snd = slots.filter fun s => !s.isStamp := by
    simp [sharedValues, Function.comp_def]
  refine
    { balance := ?_
      staged := by rw [hstage']; exact ⟨fun s hs => hstaged.stamps s (hsub.subset hs), hstaged.sorted.sublist hsub⟩
      late := fun s hs => ?_
      taken := htaken.1.trans h.taken
      cursor := by rw [hcursor, htaken.2]; exact h.cursor
      published := fun k hk hlt => hsound.stays _ _ _ htime (h.published k hk hlt)
      complete := h.complete }
  · rw [List.filter_append, List.filter_append, hvalues, ha, hb, List.nil_append, List.map_append, hsnd, List.map_map,
      hstage', List.append_assoc]
    have hid : (m₁.sharedStage.takeWhile fun s => s.timestamp < watermark).map
        (Prod.snd ∘ fun s => ((none : Option Nat), s)) = m₁.sharedStage.takeWhile fun s => s.timestamp < watermark :=
      List.map_id'' (fun _ => rfl) _
    rw [hid, List.takeWhile_append_dropWhile]
    refine (h.slots.stage.append_left _).trans ?_
    rw [← List.append_assoc]
    refine (List.perm_append_comm.append_right _).trans ?_
    rw [List.append_assoc]
    refine List.Perm.append_left _ ?_
    exact List.perm_append_comm.trans (List.filter_append_perm Sample.isStamp slots)
  · -- the stage is in order, so nothing behind its first late stamp is early
    rw [hstage'] at hs
    obtain ⟨x, tl, hcons⟩ := List.exists_cons_of_ne_nil (List.ne_nil_of_mem hs)
    have hhead := List.head?_dropWhile_not (fun s : Sample => decide (s.timestamp < watermark)) m₁.sharedStage
    rw [hcons] at hhead hs
    have hx : watermark ≤ x.timestamp := by simpa using hhead
    rcases List.mem_cons.mp hs with rfl | hs
    · exact hx
    · have hsorted := hstaged.sorted.sublist hsub
      rw [hcons] at hsorted
      exact UInt64.le_trans hx ((List.pairwise_cons.mp hsorted).1 s hs)

omit [Accum A] in
theorem sharedValue_of_mem {l : List Sample} {x : Option Nat × Sample} (h : x ∈ sharedValues l) :
    x.1 = none ∧ x.2.isStamp = false := by
  obtain ⟨s, hs, rfl⟩ := List.mem_map.mp h
  exact ⟨rfl, by simpa using (List.mem_filter.mp hs).2⟩

/-- Opening the rings hands nothing of the stage over. -/
theorem RingsOpened.filter_none {m₂ : Merger A} {rs : List Nat} {new : List MergeSource} {a : List (Option Nat × Sample)}
    {stops : Nat → Nat} (h : RingsOpened H env watermark rs m m₂ new a stops) : a.filter (fun x => x.1 = none) = [] := by
  refine List.filter_eq_nil_iff.mpr fun x hx => ?_
  obtain ⟨-, r, -, hr⟩ := h.values x hx
  simp [hr]

/-- The merge hands over the staged stamps below the watermark. -/
theorem Merged.filter_none {m₁ m₂ : Merger A} {new : List MergeSource} {b : List (Option Nat × Sample)}
    {out : Merger A × List MergeSource} (hstage : Staged m₁.sharedStage) (hsome : ∀ src ∈ new, src.ring ≠ none)
    (hnodup : ((m₁.stageSource watermark ++ new).map MergeSource.ring).Nodup)
    (h : Merged H env watermark m₂ (m₁.stageSource watermark ++ new) out b) :
    b.filter (fun x => x.1 = none) =
      (m₁.sharedStage.takeWhile fun s => s.timestamp < watermark).map fun s => (none, s) := by
  obtain ⟨data, hdata, hcase, hstaged⟩ := stageSource_spec env watermark hstage
  rw [← hdata]
  rcases hcase with ⟨hnil, hs⟩ | ⟨hne, hs⟩
  · rw [h.filter_nil, hnil]
    · rfl
    · intro src hsrc
      rw [hs, List.nil_append] at hsrc
      exact hsome src hsrc
  · have hmem : (⟨data, 0, 0, none, none⟩ : MergeSource) ∈ m₁.stageSource watermark := by
      rw [hs]
      exact List.mem_singleton_self _
    obtain ⟨-, -, -, -, hbelow, -, -⟩ := hstaged _ hmem
    rw [h.filter hnodup (List.mem_append_left _ hmem), laneOf, MergeSource.rest, List.drop_zero, hbelow]

/-- Only the merge hands over stamps. -/
theorem RingsOpened.inOrder {m₂ : Merger A} {rs : List Nat} {new : List MergeSource} {a b : List (Option Nat × Sample)}
    {stops : Nat → Nat} (h : RingsOpened H env watermark rs m m₂ new a stops) (l : List Sample) (hb : InOrder b) :
    InOrder (sharedValues l ++ (a ++ b)) := by
  have hquiet : (sharedValues l).filter (fun x => x.2.isStamp) = [] :=
    List.filter_eq_nil_iff.mpr fun x hx => by simp [(sharedValue_of_mem hx).2]
  have hquiet' : a.filter (fun x => x.2.isStamp) = [] :=
    List.filter_eq_nil_iff.mpr fun x hx => by simp [(h.values x hx).1]
  unfold InOrder
  rw [List.filter_append, List.filter_append, hquiet, hquiet', List.nil_append, List.nil_append]
  exact hb

/-- What is handed over is of the shared ring or of a ring the pass opened, and its stamps are below the watermark. -/
theorem RingsOpened.early {m₂ m₃ : Merger A} {rs : List Nat} {stage new : List MergeSource}
    {a b : List (Option Nat × Sample)} {stops : Nat → Nat} {out : Merger A × List MergeSource}
    (h : RingsOpened H env watermark rs m m₂ new a stops) (hstage : ∀ src ∈ stage, src.ring = none)
    (hmerged : Merged H env watermark m₃ (stage ++ new) out b) (l : List Sample) {x : Option Nat × Sample}
    (hx : x ∈ sharedValues l ++ (a ++ b)) :
    (x.2.isStamp = true → x.2.timestamp < watermark) ∧ ∀ r, x.1 = some r → r ∈ rs := by
  rcases List.mem_append.mp hx with hshared | hx
  · obtain ⟨htag, hvalue⟩ := sharedValue_of_mem hshared
    rw [htag, hvalue]
    exact ⟨fun hstamp => absurd hstamp Bool.false_ne_true, fun r hr => absurd hr.symm (Option.some_ne_none r)⟩
  rcases List.mem_append.mp hx with hopened | hmem
  · obtain ⟨hvalue, r', hr', htag⟩ := h.values x hopened
    rw [htag, hvalue]
    refine ⟨fun hstamp => absurd hstamp Bool.false_ne_true, fun r hr => ?_⟩
    cases hr
    exact hr'
  · obtain ⟨⟨src, hsrc, htag⟩, hlt⟩ := hmerged.early hmem
    refine ⟨hlt, fun r hr => ?_⟩
    rcases List.mem_append.mp hsrc with hsrc | hsrc
    · rw [htag, hstage src hsrc] at hr
      cases hr
    · obtain ⟨-, r', hr', hring, -⟩ := h.ready src hsrc
      cases (htag.trans hring).symm.trans hr
      exact hr'

/-- One call of `merge_pass` in which nothing is overwritten. -/
theorem mergePass_spec (Hm : HeapLib) (hsound : env.Sound) (hrings : env.rings ≠ 0) (hpos : 0 < watermark)
    (hstage : Staged m.sharedStage) (hcur : ∀ r, r < env.rings → m.ringCursor r ≤ env.head m.time r)
    (hwait : ∀ r, r < env.rings → Waiting env m r)
    (hasc : ∀ r, r < env.rings → ∀ t, Ascending (unread env m r (env.head t r)))
    (hlost : (m.mergePass H env Hm watermark).ringLost = m.ringLost) :
    ∃ trace n, Passed H env watermark m (m.mergePass H env Hm watermark) trace n := by
  obtain ⟨n, hshared⟩ := readShared_spec (H := H) env hsound hrings m
  unfold Merger.mergePass at hlost ⊢
  generalize m.readShared H env = out at hshared hlost ⊢
  obtain ⟨m₁, any⟩ := out
  obtain ⟨hcur₁, hwait₁, hlost₁⟩ := hshared.slots.rings
  simp only at hcur₁ hwait₁ hlost₁ hlost ⊢
  -- nothing was lost on the way
  have hle₂ := (readsOn_ringSources H env watermark (List.range env.rings)
    { m₁ with progressed := any } (m₁.stageSource watermark)).lost
  generalize hopen : Merger.ringSources H env watermark (List.range env.rings) { m₁ with progressed := any }
    (m₁.stageSource watermark) = opened at hlost hle₂ ⊢
  obtain ⟨m₂, sources⟩ := opened
  simp only at hlost hle₂ ⊢
  set m₂' : Merger A := { m₂ with progressed := m₂.progressed || !sources.isEmpty } with hm₂
  have hle₃ : m₂.ringLost ≤ (m₂'.mergeSources H env Hm watermark sources).1.ringLost :=
    (readsOn_mergeSources Hm sources m₂').lost
  rw [(eraseStage_kept _ _).1] at hlost
  have hmono := fun r => hsound.heads r _ _ hshared.time
  obtain ⟨m₂'', new, a, stops, heq, hopened⟩ := ringSources_spec H watermark hsound hpos (List.range env.rings)
    List.nodup_range { m₁ with progressed := any } (m₁.stageSource watermark)
    (fun r hr => by
      simp only [hcur₁]
      exact (hcur r (List.mem_range.mp hr)).trans (hmono r))
    (fun r hr => by
      unfold Waiting
      simp only [hcur₁, hwait₁]
      exact (hwait r (List.mem_range.mp hr)).imp_right fun h => ⟨h.1.trans_le (hmono r), h.2⟩)
    (by rw [hopen]; simp only at hle₂ hle₃ ⊢; omega)
  cases hopen.symm.trans heq
  have hunread : ∀ r stop, unread env { m₁ with progressed := any } r stop = unread env m r stop := fun r stop => by
    simp only [unread, hcur₁]
  obtain ⟨data, hdata, hcase, hstaged⟩ := stageSource_spec env watermark
    (hshared.slots.staged hstage)
  have hnone : ∀ src ∈ m₁.stageSource watermark, src.ring = none := fun src hsrc => (hstaged src hsrc).1
  have hsome : ∀ src ∈ new, src.ring ≠ none := fun src hsrc heq => by
    obtain ⟨-, r, -, hr, -⟩ := hopened.ready src hsrc
    rw [hr] at heq
    cases heq
  have hone : ((m₁.stageSource watermark).map MergeSource.ring).Nodup := by
    rcases hcase with ⟨-, hs⟩ | ⟨-, hs⟩ <;> rw [hs]
    · exact List.nodup_nil
    · exact List.nodup_singleton _
  have hnodup := stage_rings_nodup hnone hone hsome hopened.nodup
  obtain ⟨b, hmerged⟩ := mergeSources_spec H m₂' (m₁.stageSource watermark ++ new) Hm
    (fun src hsrc => by
      rcases List.mem_append.mp hsrc with hsrc | hsrc
      · exact (hstaged src hsrc).2.2.2.2.2.2 _
      · exact (hopened.ready src hsrc).1)
    (rings_distinct hnodup)
    (fun src hsrc => by
      rcases List.mem_append.mp hsrc with hsrc | hsrc
      · obtain ⟨hr, hp, hd, hs, -⟩ := hstaged src hsrc
        rw [MergeSource.rest, hr, hp, hd]
        exact hs
      · obtain ⟨-, r, hr, -, -, hrest⟩ := hopened.ready src hsrc
        rw [hrest, hunread]
        have hreach := (hopened.reach r hr).2.2 _ (Nat.le_refl _)
        exact ((hasc r (List.mem_range.mp hr) _).stretch (Nat.le_refl _) hreach).fromStamp)
    (by change _ = m₂.ringLost; omega)
  generalize m₂'.mergeSources H env Hm watermark (m₁.stageSource watermark ++ new) = out at hmerged hlost hle₃ ⊢
  obtain ⟨m₃, sources'⟩ := out
  have hfed : Fed H { m₁ with progressed := any } m₃ (a ++ b) := by
    have hquiet : Fed H m₂ m₂' [] :=
      ⟨rfl, (List.append_nil _).symm, rfl, rfl, ⟨rfl, rfl⟩, ⟨rfl, rfl⟩, Nat.le_refl _, Nat.le_refl _⟩
    have := (hopened.fed.trans hquiet).trans hmerged.fed
    rwa [List.append_nil] at this
  obtain ⟨p, herase⟩ := eraseStage_spec (hshared.slots.staged hstage) hsome hmerged hfed.stage
  rw [herase]
  refine ⟨sharedValues (logFrom env.slot m.cursor (m.cursor + n)) ++ (a ++ b), n,
    { hands := ?_
      time := hshared.time.trans hfed.time
      order := ?_
      early := fun x hx => (hopened.early hnone hmerged _ hx).1
      sources := fun x hx r hr => List.mem_range.mp ((hopened.early hnone hmerged _ hx).2 r hr)
      rings := fun r hr => ?_
      shared := hshared.sharedPassed hsound hstage hopened.filter_none
        (hmerged.filter_none (hshared.slots.staged hstage) hsome hnodup) rfl hfed.time hfed.cursor hfed.taken }⟩
  · have hall := hshared.slots.hands.trans (⟨hfed.pairer, hfed.handed⟩ : HandsOver H m₁ m₃ (a ++ b))
    exact ⟨hall.pairer, hall.handed⟩
  · exact hopened.inOrder _ hmerged.order
  · have hmem := List.mem_range.mpr hr
    have hmerged' : Merged H env watermark m₂ (m₁.stageSource watermark ++ new) (m₃, sources') b :=
      { hmerged with
        fed := ⟨hmerged.fed.pairer, hmerged.fed.handed, hmerged.fed.stage, hmerged.fed.cursor, hmerged.fed.taken,
          hmerged.fed.stalled, hmerged.fed.time, hmerged.fed.lost⟩
        others := hmerged.others }
    obtain ⟨hhanded, hcursor, hwaits⟩ := hopened.merged hnone hnodup hmerged' hmem
    obtain ⟨hhead, hle, hreach⟩ := hopened.reach r hmem
    simp only [hunread] at hhanded hcursor hwaits
    simp only [hcur₁] at hle
    refine RingPassed.of_beyond hle ((hmono r).trans hhead) (hreach _ hmerged.fed.time) ?_ hcursor hwaits
    have hquiet : (sharedValues (logFrom env.slot m.cursor (m.cursor + n))).filter (fun x => x.1 = some r) = [] :=
      List.filter_eq_nil_iff.mpr fun x hx => by simp [(sharedValue_of_mem hx).1]
    rw [List.filter_append, hquiet, List.nil_append]
    exact hhanded

end Pass

end SlickPerfmon
