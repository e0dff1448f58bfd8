import SlickPerfmon.Merge.Order
import SlickPerfmon.Pairing.CompleteSpans

/-!
# Spans that cross threads

The stamps of complete spans lie on any rings, each ring's in timestamp order. Whatever the passes are, once each stamp
was published before the first pass that is past it, the pairer has the stamps of every key in their own order, and
measures every span.
-/

namespace SlickPerfmon

open Library

section Spans

variable {A : Type} [Accum A] {H : HeapLib} {env : World}

/-! ## A pass with watermark 0 -/

theorem ringSources_zero (rs : List Nat) (m : Merger A) (sources : List MergeSource) :
    Merger.ringSources H env 0 rs m sources = (m, sources) := by
  induction rs with
  | nil => rfl
  | cons r rs ih =>
      have hwait : m.ringWaitTs r ≥ 0 := UInt64.zero_le
      rw [Merger.ringSources, if_pos hwait, ih]

theorem takeWhile_zero (stage : List Sample) : (stage.takeWhile fun s => s.timestamp < 0) = [] := by
  cases stage with
  | nil => rfl
  | cons s stage => rw [List.takeWhile_cons_of_neg (by simp)]

theorem dropWhile_zero (stage : List Sample) : (stage.dropWhile fun s => s.timestamp < 0) = stage := by
  cases stage with
  | nil => rfl
  | cons s stage => rw [List.dropWhile_cons_of_neg (by simp)]

omit [Accum A] in
theorem stageSource_zero (m : Merger A) : m.stageSource 0 = [] := by
  rw [Merger.stageSource, takeWhile_zero]

/-- It leaves the rings alone, which is what a pass does where the next sample of each ring is a stamp. -/
theorem passed_zero (Hm : HeapLib) (hsound : env.Sound) (hrings : env.rings ≠ 0) {m : Merger A}
    (hstage : Staged m.sharedStage) (hcur : ∀ r, r < env.rings → m.ringCursor r ≤ env.head m.time r)
    (hwait : ∀ r, r < env.rings → Waiting env m r)
    (hstamps : ∀ r, r < env.rings → ∀ t, m.ringCursor r < env.head t r → (env.log r (m.ringCursor r)).isStamp = true) :
    ∃ trace n, Passed H env 0 m (m.mergePass H env Hm 0) trace n := by
  obtain ⟨n, hshared⟩ := readShared_spec (H := H) env hsound hrings m
  unfold Merger.mergePass
  generalize m.readShared H env = out at hshared ⊢
  obtain ⟨m₁, any⟩ := out
  obtain ⟨hcur₁, hwait₁, -⟩ := hshared.slots.rings
  simp only [ringSources_zero, stageSource_zero, Merger.mergeSources, List.foldl_nil]
  simp only at hcur₁ hwait₁
  have hmono := fun r => hsound.heads r _ _ hshared.time
  have hvalue : ∀ x ∈ sharedValues (logFrom env.slot m.cursor (m.cursor + n)), x.1 = none ∧ x.2.isStamp = false := by
    intro x hx
    obtain ⟨s, hs, rfl⟩ := List.mem_map.mp hx
    exact ⟨rfl, by simpa using (List.mem_filter.mp hs).2⟩
  have hquiet {p : Option Nat × Sample → Bool} (hp : ∀ x : Option Nat × Sample, x.1 = none → x.2.isStamp = false → p x = false) :
      (sharedValues (logFrom env.slot m.cursor (m.cursor + n)) ++ ([] ++ [])).filter p = [] := by
    rw [List.append_nil, List.append_nil, List.filter_eq_nil_iff]
    intro x hx
    rw [hp x (hvalue x hx).1 (hvalue x hx).2]
    exact Bool.false_ne_true
  refine ⟨sharedValues (logFrom env.slot m.cursor (m.cursor + n)) ++ ([] ++ []), n,
    { hands := ?_
      time := hshared.time
      order := ?_
      early := fun x hx hstamp => ?_
      sources := fun x hx r hr => ?_
      rings := fun r hr => ?_
      shared := hshared.sharedPassed hsound hstage rfl ?_ ?_ (Nat.le_refl _) rfl ⟨rfl, rfl⟩ }⟩
  · simp only [List.append_nil]
    exact ⟨hshared.slots.hands.pairer, hshared.slots.hands.handed⟩
  · rw [InOrder, hquiet fun x _ hx => hx]
    exact List.Pairwise.nil
  · rw [List.append_nil, List.append_nil] at hx
    rw [(hvalue x hx).2] at hstamp
    cases hstamp
  · rw [List.append_nil, List.append_nil] at hx
    rw [(hvalue x hx).1] at hr
    cases hr
  · exact
      { handed := by
          rw [hquiet fun x hx _ => by simp [hx], hcur₁, logFrom_eq_nil (Nat.le_refl _)]
          rfl
        moved := by rw [hcur₁]
        within := by
          rw [hcur₁]
          exact (hcur r hr).trans (hmono r)
        waiting := by
          unfold Waiting
          simp only [hcur₁, hwait₁]
          exact (hwait r hr).imp_right fun h => ⟨h.1.trans_le (hmono r), h.2⟩
        reached := by
          simp only [hcur₁]
          rcases Nat.lt_or_ge (m.ringCursor r) (env.head m₁.time r) with hlt | hge
          · exact Or.inr ⟨hlt, hstamps r hr _ hlt, UInt64.zero_le⟩
          · exact Or.inl ((hmono r).trans hge) }
  · rw [takeWhile_zero]
    rfl
  · rw [dropWhile_zero]

/-! ## The passes -/

omit [Accum A] in
/-- The stamps of the spans over the rings: ring `r` is given the samples up to `stop r`, and no other sample is
published. -/
structure Spread (env : World) (m₀ : Merger A) (spans : List CompleteSpan) (stop : Nat → Nat) : Prop where
  shared : ∀ t k, ¬env.Published t k
  heads : ∀ r, r < env.rings → ∀ t, env.head t r ≤ stop r
  contents : ((List.range env.rings).flatMap fun r => logFrom (env.log r) (m₀.ringCursor r) (stop r)).Perm
    (spans.flatMap CompleteSpan.stamps)
  order : ∀ r, r < env.rings → (logFrom (env.log r) (m₀.ringCursor r) (stop r)).Pairwise fun a b =>
    a.timestamp ≤ b.timestamp
  increasing : ∀ p q, ((spans.filter (·.isOf p q)).flatMap CompleteSpan.stamps).Pairwise fun a b =>
    a.timestamp < b.timestamp

variable (H env) in
/-- A pass at none of whose reads a ring was lapped, and before which every stamp below its watermark was published. -/
structure SpanPass (m₀ : Merger A) (stop : Nat → Nat) (m : Merger A) (pass : UInt64 × HeapLib) : Prop where
  published : ∀ r, r < env.rings → ∀ i, m₀.ringCursor r ≤ i → i < stop r →
    (env.log r i).timestamp < pass.1 → i < env.head m.time r
  unlapped : Unlapped env m (m.mergePass H env pass.2 pass.1)

variable (H env) in
def Merger.passes (m : Merger A) (ps : List (UInt64 × HeapLib)) : Merger A :=
  ps.foldl (fun m pass => m.mergePass H env pass.2 pass.1) m

variable (H env) in
/-- Every pass of a run is such. -/
def SpanPasses (m₀ : Merger A) (stop : Nat → Nat) : Merger A → List (UInt64 × HeapLib) → Prop
  | _, [] => True
  | m, pass :: ps => SpanPass H env m₀ stop m pass ∧ SpanPasses m₀ stop (m.mergePass H env pass.2 pass.1) ps

variable (H env) in
/-- Between two passes: nothing came from the shared ring, and the pairer was given what was delivered. -/
structure SpansPaused (m₀ m : Merger A) : Prop where
  paused : ∃ W, Paused env m₀ W m
  quiet : m.taken = []
  pairer : m.pairer = (m.delivered.map Prod.snd).foldl (fun P s => P.onEvent H s) m₀.pairer

variable {m₀ m : Merger A} {spans : List CompleteSpan} {stop : Nat → Nat}

omit [Accum A] in
theorem Spread.isStamp (h : Spread env m₀ spans stop) {r i : Nat} (hr : r < env.rings) (hi : m₀.ringCursor r ≤ i)
    (hlt : i < stop r) : (env.log r i).isStamp = true := by
  have hmem : env.log r i ∈ spans.flatMap CompleteSpan.stamps :=
    h.contents.mem_iff.mp (List.mem_flatMap.mpr ⟨r, List.mem_range.mpr hr, mem_logFrom.mpr ⟨i, hi, hlt, rfl⟩⟩)
  obtain ⟨sp, -, hsp⟩ := List.mem_flatMap.mp hmem
  exact CompleteSpan.isStamp_of_mem hsp

omit [Accum A] in
theorem Spread.ascending (h : Spread env m₀ spans stop) {r : Nat} (hr : r < env.rings) (t : Nat) :
    Ascending (logFrom (env.log r) (m₀.ringCursor r) (env.head t r)) := by
  have hall : Ascending (logFrom (env.log r) (m₀.ringCursor r) (stop r)) := (h.order r hr).filter _
  exact hall.stretch (Nat.le_refl _) (h.heads r hr t)

theorem SpansPaused.start (hstart : Started env m₀) : SpansPaused H env m₀ m₀ where
  paused := ⟨0, hstart.paused⟩
  quiet := hstart.fresh.2.1
  pairer := by
    rw [Merger.delivered, hstart.fresh.1]
    rfl

/-- What such a pass does, whatever else the pairer was told: nothing comes from the shared ring. -/
theorem SpanPass.passed (hsound : env.Sound) (hrings : env.rings ≠ 0) (hspread : Spread env m₀ spans stop) {W : UInt64}
    (hp : Paused env m₀ W m) {pass : UInt64 × HeapLib} (hpass : SpanPass H env m₀ stop m pass) :
    (∃ trace, Passed H env pass.1 m (m.mergePass H env pass.2 pass.1) trace 0) ∧ Timely env m₀ m pass.1 := by
  have hasc := fun r (hr : r < env.rings) t => hspread.ascending hr t
  have hpassed : ∃ trace n, Passed H env pass.1 m (m.mergePass H env pass.2 pass.1) trace n := by
    by_cases hpos : 0 < pass.1
    · exact hp.passed hsound hrings hasc hpos hpass.unlapped
    · have hzero : pass.1 = 0 := UInt64.le_zero_iff.mp (UInt64.not_lt.mp hpos)
      rw [hzero]
      refine passed_zero pass.2 hsound hrings hp.staged (fun r hr => (hp.cursors r hr).2) hp.waiting ?_
      intro r hr t hlt
      exact hspread.isStamp hr (hp.cursors r hr).1 (hlt.trans_le (hspread.heads r hr t))
  obtain ⟨trace, n, hpd⟩ := hpassed
  have hn : n = 0 := by
    by_contra hne
    exact hspread.shared _ _ (hpd.shared.published m.cursor (Nat.le_refl _) (by omega))
  subst hn
  exact ⟨⟨trace, hpd⟩,
    { rings := fun r hr i t hi hlt _ hts => hpass.published r hr i hi (hlt.trans_le (hspread.heads r hr t)) hts
      shared := fun k t hpub => absurd hpub (hspread.shared t k)
      room := fun k hpub => absurd hpub (hspread.shared _ k) }⟩

/-- One more pass. -/
theorem SpansPaused.pass (hsound : env.Sound) (hrings : env.rings ≠ 0) (hspread : Spread env m₀ spans stop)
    (h : SpansPaused H env m₀ m) {pass : UInt64 × HeapLib} (hpass : SpanPass H env m₀ stop m pass) :
    SpansPaused H env m₀ (m.mergePass H env pass.2 pass.1) ∧
      Complete env m₀ m (m.mergePass H env pass.2 pass.1) pass.1 := by
  obtain ⟨W, hp⟩ := h.paused
  obtain ⟨⟨trace, hpd⟩, htimely⟩ := hpass.passed hsound hrings hspread hp
  obtain ⟨hpaused, hcomplete⟩ := hpd.next hp (fun r hr t => hspread.ascending hr t) htimely
  refine ⟨⟨hpaused, ?_, ?_⟩, hcomplete⟩
  · rw [hpd.shared.taken, h.quiet]
    rfl
  · rw [hpd.hands.delivered, hpd.hands.pairer, h.pairer, List.map_append, List.foldl_append, List.foldl_map,
      List.foldl_map]

theorem SpansPaused.passes (hsound : env.Sound) (hrings : env.rings ≠ 0) (hspread : Spread env m₀ spans stop)
    {ps : List (UInt64 × HeapLib)} (h : SpansPaused H env m₀ m) (hps : SpanPasses H env m₀ stop m ps) :
    SpansPaused H env m₀ (m.passes H env ps) := by
  induction ps generalizing m with
  | nil => exact h
  | cons pass ps ih => exact ih (h.pass hsound hrings hspread hps.1).1 hps.2

theorem SpanPasses.append {ps : List (UInt64 × HeapLib)} {pass : UInt64 × HeapLib}
    (h : SpanPasses H env m₀ stop m (ps ++ [pass])) :
    SpanPasses H env m₀ stop m ps ∧ SpanPass H env m₀ stop (m.passes H env ps) pass := by
  induction ps generalizing m with
  | nil => exact ⟨trivial, h.1⟩
  | cons p ps ih => exact ⟨⟨h.1, (ih h.2).1⟩, (ih h.2).2⟩

/-! ## What was delivered in the end -/

/-- A list whose elements all have one of the first `n` tags is made of what each tag has of it. -/
theorem perm_flatMap_tag {α : Type} (l : List (Option Nat × α)) (n : Nat) (h : ∀ x ∈ l, ∃ r, r < n ∧ x.1 = some r) :
    l.Perm ((List.range n).flatMap fun r => l.filter fun x => x.1 = some r) := by
  induction n generalizing l with
  | zero =>
      cases l with
      | nil => exact .nil
      | cons x l =>
          obtain ⟨r, hr, -⟩ := h x List.mem_cons_self
          exact absurd hr (Nat.not_lt_zero r)
  | succ n ih =>
      have hrest := ih (l.filter fun x => !decide (x.1 = some n)) fun x hx => by
        obtain ⟨hx, hne⟩ := List.mem_filter.mp hx
        obtain ⟨r, hr, htag⟩ := h x hx
        refine ⟨r, ?_, htag⟩
        rcases Nat.lt_succ_iff_lt_or_eq.mp hr with hlt | rfl
        · exact hlt
        · simp [htag] at hne
      have hsame : ∀ r ∈ List.range n, (l.filter fun x => !decide (x.1 = some n)).filter (fun x => x.1 = some r) =
          l.filter fun x => x.1 = some r := by
        intro r hr
        rw [List.filter_filter]
        refine List.filter_congr fun x _ => ?_
        have hne : r ≠ n := Nat.ne_of_lt (List.mem_range.mp hr)
        by_cases htag : x.1 = some r
        · simp [htag, hne]
        · simp [htag]
      rw [List.flatMap_congr hsame] at hrest
      have hsplit := List.filter_append_perm (fun x : Option Nat × α => decide (x.1 = some n)) l
      rw [List.range_succ, List.flatMap_append, List.flatMap_singleton]
      exact hsplit.symm.trans (List.perm_append_comm.trans (hrest.append_right _))

/-- A pass whose watermark is past every stamp reads every ring to its end. -/
theorem SpanPass.reaches (hspread : Spread env m₀ spans stop) {m' : Merger A} {W : UInt64} (hp : Paused env m₀ W m')
    {pass : UInt64 × HeapLib} (hpass : SpanPass H env m₀ stop m pass) (hcomplete : Complete env m₀ m m' pass.1)
    (hlast : ∀ sp ∈ spans, ∀ s ∈ sp.stamps, s.timestamp < pass.1) {r : Nat} (hr : r < env.rings) :
    m'.ringCursor r = stop r := by
  obtain ⟨hlo, hhi⟩ := hp.cursors r hr
  refine Nat.le_antisymm (hhi.trans (hspread.heads r hr _)) (Nat.le_of_not_lt fun hlt => ?_)
  have hmem : env.log r (m'.ringCursor r) ∈ spans.flatMap CompleteSpan.stamps :=
    hspread.contents.mem_iff.mp (List.mem_flatMap.mpr
      ⟨r, List.mem_range.mpr hr, mem_logFrom.mpr ⟨_, hlo, hlt, rfl⟩⟩)
  obtain ⟨sp, hsp, hs⟩ := List.mem_flatMap.mp hmem
  have hearly := hlast sp hsp _ hs
  have hpub := hpass.published r hr _ hlo hlt hearly
  exact Nat.lt_irrefl _ (hcomplete.stamps r hr _ hlo hpub (hspread.isStamp hr hlo hlt) hearly)

omit [Accum A] in
/-- Once every ring is read to its end, the pairer has had exactly the stamps of the spans, in order. -/
theorem Paused.spansInOrder (hspread : Spread env m₀ spans stop) {W : UInt64} (hp : Paused env m₀ W m)
    (hquiet : m.taken = []) (hreached : ∀ r, r < env.rings → m.ringCursor r = stop r) :
    SpansInOrder spans (m.delivered.map Prod.snd) := by
  have htagged : ∀ x ∈ m.delivered, ∃ r, r < env.rings ∧ x.1 = some r := by
    intro x hx
    cases htag : x.1 with
    | some r => exact ⟨r, hp.delivered.sources x hx r htag, rfl⟩
    | none =>
        -- nothing came from the shared ring
        have hshared := hp.delivered.shared
        rw [hquiet, List.map_nil] at hshared
        have hnil := List.append_eq_nil_iff.mp hshared.eq_nil
        have hmem : x.2 ∈ (m.delivered.filter fun x => x.1 = none).map Prod.snd :=
          List.mem_map.mpr ⟨x, List.mem_filter.mpr ⟨hx, decide_eq_true htag⟩, rfl⟩
        rw [hnil.1] at hmem
        cases hmem
  have hperm : (m.delivered.map Prod.snd).Perm (spans.flatMap CompleteSpan.stamps) := by
    refine ((perm_flatMap_tag m.delivered env.rings htagged).map Prod.snd).trans ?_
    have hring : ∀ r ∈ List.range env.rings, (m.delivered.filter fun x => x.1 = some r).map Prod.snd =
        logFrom (env.log r) (m₀.ringCursor r) (stop r) := by
      intro r hr
      have hr := List.mem_range.mp hr
      rw [hp.delivered.rings r hr, hreached r hr, List.map_map]
      exact List.map_id _
    rw [List.map_flatMap, List.flatMap_congr hring]
    exact hspread.contents
  refine ⟨hperm, ?_, hspread.increasing⟩
  have hstamps : m.delivered.filter (fun x => x.2.isStamp) = m.delivered := by
    refine List.filter_eq_self.mpr fun x hx => ?_
    obtain ⟨sp, -, hs⟩ := List.mem_flatMap.mp (hperm.mem_iff.mp (List.mem_map.mpr ⟨x, hx, rfl⟩))
    exact CompleteSpan.isStamp_of_mem hs
  have horder := hp.delivered.order
  rw [InOrder, hstamps] at horder
  exact List.pairwise_map.mpr horder

/-- Once every stamp is below the watermark of a pass, the pairer has had exactly the stamps of the spans, in order. -/
theorem SpansPaused.inOrder (hsound : env.Sound) (hrings : env.rings ≠ 0) (hspread : Spread env m₀ spans stop)
    (h : SpansPaused H env m₀ m) {pass : UInt64 × HeapLib} (hpass : SpanPass H env m₀ stop m pass)
    (hlast : ∀ sp ∈ spans, ∀ s ∈ sp.stamps, s.timestamp < pass.1) :
    SpansInOrder spans ((m.mergePass H env pass.2 pass.1).delivered.map Prod.snd) := by
  obtain ⟨hpaused, hcomplete⟩ := h.pass hsound hrings hspread hpass
  obtain ⟨W, hp⟩ := hpaused.paused
  exact hp.spansInOrder hspread hpaused.quiet fun r hr => hpass.reaches hspread hp hcomplete hlast hr

end Spans

/-- Spans that cross threads are measured exactly: after any passes, the last of them past every stamp, the pairer
holds one total of each span and one sample for each two consecutive stamps of a span with steps, and nothing else. -/
theorem crossing_spans_measured {A : Type} [Accum A] (H : HeapLib) (env : World) (m₀ : Merger A) (cfg : Config)
    (spans : List CompleteSpan) (stop : Nat → Nat) (ps : List (UInt64 × HeapLib)) (last : UInt64 × HeapLib)
    (hsound : env.Sound) (hrings : env.rings ≠ 0) (hstart : Started env m₀) (hpairer : m₀.pairer = Pairer.reset cfg)
    (hspread : Spread env m₀ spans stop)
    (hopen : ∀ ts, (keysAt spans ts).card ≤ max 1 cfg.maxOpenSpans.toNat)
    (hstages : (spanStages spans).card ≤ max 1 cfg.maxStages.toNat)
    (hps : SpanPasses H env m₀ stop m₀ (ps ++ [last]))
    (hlast : ∀ sp ∈ spans, ∀ s ∈ sp.stamps, s.timestamp < last.1) :
    Measured spans (m₀.passes H env (ps ++ [last])).pairer := by
  obtain ⟨hps, hpass⟩ := hps.append
  have hpaused := (SpansPaused.start (H := H) hstart).passes hsound hrings hspread hps
  have horder := hpaused.inOrder hsound hrings hspread hpass hlast
  have hend := (hpaused.pass hsound hrings hspread hpass).1.pairer
  have hpasses : m₀.passes H env (ps ++ [last]) = (m₀.passes H env ps).mergePass H env last.2 last.1 := by
    rw [Merger.passes, List.foldl_append]
    rfl
  rw [hpasses, hend, hpairer]
  exact horder.measured H hopen hstages

/-- Ring 0 and ring 1 share two spans of one key. -/
def sharedSpans : World where
  rings := 2
  mask := 7
  log r i :=
    if r = 0 then (if i = 0 then ⟨10, 1, makeEvent kBeginStep 5⟩ else ⟨10 + 20 * i.toUInt64, 1, makeEvent kEndStep 5⟩)
    else if i = 0 then ⟨20, 1, makeEvent 3 5⟩ else ⟨40, 1, makeEvent kBeginStep 5⟩
  head _ r := if r = 0 then 3 else 2
  slot _ := ⟨0, 0, 0⟩
  read _ _ := 0
  reserved _ := 0
  now t := t
  queueCapacity := 16
  stalledSampleTimeout := 5
  two_le_queueCapacity := by decide

def sharedSpanList : List CompleteSpan :=
  [⟨1, 5, 10, [(20, 3)], 30, by simp, by simp [kBeginStep, kMaxSpanStep]⟩,
    ⟨1, 5, 40, [], 50, by simp, by simp⟩]

theorem sharedSpans_spread : Spread sharedSpans (startedMerger ⟨2, 4⟩) sharedSpanList (sharedSpans.head 0) where
  shared _ _ h := Nat.lt_irrefl 0 h
  heads _ _ _ := Nat.le_refl _
  contents := by decide
  order
    | 0, _ => by decide
    | 1, _ => by decide
  increasing p q := by
    have hall : (sharedSpanList.flatMap CompleteSpan.stamps).Pairwise fun a b => a.timestamp < b.timestamp := by decide
    rw [← SpansInOrder.filter_stamps]
    exact hall.filter _

theorem sharedSpans_keysAt (ts : UInt64) : (keysAt sharedSpanList ts).card ≤ 2 := by
  have hsub : keysAt sharedSpanList ts ⊆ (sharedSpanList.map fun sp => (sp.point, sp.seq)).toFinset := fun k hk => by
    obtain ⟨sp, hsp, rfl⟩ := List.mem_map.mp (List.mem_toFinset.mp hk)
    exact List.mem_toFinset.mpr (List.mem_map.mpr ⟨sp, List.mem_of_mem_filter hsp, rfl⟩)
  exact (Finset.card_le_card hsub).trans (by decide)

theorem sharedSpans_pass {m : Merger (Accumulator 4)} {pass : UInt64 × HeapLib}
    (hun : Unlapped sharedSpans m (m.mergePass sortingLib sharedSpans pass.2 pass.1)) :
    SpanPass sortingLib sharedSpans (startedMerger ⟨2, 4⟩) (sharedSpans.head 0) m pass where
  published _ _ _ _ hlt _ := hlt
  unlapped := hun

theorem crossing_spans_measured_sharedSpans :
    Measured sharedSpanList
      ((startedMerger ⟨2, 4⟩).passes sortingLib sharedSpans [(25, sortingLib), (0, sortingLib), (60, sortingLib)]).pairer ∧
      spanSamples sharedSpanList 1 0 0 = {20, 10} ∧ spanSamples sharedSpanList 1 0 3 = {10} := by
  refine ⟨crossing_spans_measured sortingLib sharedSpans (startedMerger ⟨2, 4⟩) ⟨2, 4⟩ sharedSpanList
    (sharedSpans.head 0) [(25, sortingLib), (0, sortingLib)] (60, sortingLib)
    ⟨fun _ _ _ _ => Nat.le_refl _, fun _ _ _ h => absurd h (Nat.not_lt_zero _), fun _ _ _ _ h => h⟩ (by decide)
    ⟨rfl, fun _ => rfl, fun _ _ => Nat.zero_le _, rfl, rfl, rfl⟩ rfl sharedSpans_spread sharedSpans_keysAt (by decide)
    ⟨sharedSpans_pass (by decide), sharedSpans_pass (by decide), sharedSpans_pass (by decide), trivial⟩ (by decide),
    by decide, by decide⟩

end SlickPerfmon
