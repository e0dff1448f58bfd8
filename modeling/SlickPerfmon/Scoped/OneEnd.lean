import SlickPerfmon.Scoped.Tracked

/-!
# One end stamp a span

What a program makes of its spans, by how often each was ended and whether the guard that owned it was cancelled.
-/

namespace SlickPerfmon

open Library

section Runs

variable {Obj : Type} [DecidableEq Obj]

/-! ## What the program says of a span -/

/-- `cancel()` was called on the guard that owned the span then. -/
def CancelledBy (t : Tracked Obj) (ops : List (GuardOp Obj)) (id : Nat) : Prop :=
  ∃ before x after t₁, ops = before ++ .cancel x :: after ∧ (guards Obj).run before t = some t₁ ∧ t₁.owns x = some id

theorem not_cancelledBy_nil (t : Tracked Obj) (id : Nat) : ¬ CancelledBy t [] id := by
  rintro ⟨before, x, after, t₁, hops, -⟩
  simp at hops

theorem cancelledBy_cons {op : GuardOp Obj} {ops : List (GuardOp Obj)} {t t₁ : Tracked Obj} (h : t.exec op = some t₁)
    {id : Nat} :
    CancelledBy t (op :: ops) id ↔ (∃ x, op = .cancel x ∧ t.owns x = some id) ∨ CancelledBy t₁ ops id := by
  constructor
  · rintro ⟨before, x, after, t₂, hops, hrun, howns⟩
    cases before with
    | nil =>
        cases hrun
        exact Or.inl ⟨x, (List.cons.inj hops).1, howns⟩
    | cons op' before =>
        obtain ⟨rfl, htail⟩ := List.cons.inj hops
        rw [System.run, Option.bind_eq_some_iff] at hrun
        obtain ⟨t', hexec, hrun⟩ := hrun
        obtain rfl : t₁ = t' := Option.some.inj (h.symm.trans hexec)
        exact Or.inr ⟨before, x, after, t₂, htail, hrun, howns⟩
  · rintro (⟨x, rfl, howns⟩ | ⟨before, x, after, t₂, rfl, hrun, howns⟩)
    · exact ⟨[], x, ops, t, rfl, rfl, howns⟩
    · refine ⟨op :: before, x, after, t₂, rfl, ?_, howns⟩
      rw [System.run, Option.bind_eq_some_iff]
      exact ⟨t₁, h, hrun⟩

theorem mem_log_exec {op : GuardOp Obj} {t t' : Tracked Obj} (h : t.exec op = some t') {id : Nat} :
    (id, .cancelled) ∈ t'.log ↔ (id, .cancelled) ∈ t.log ∨ ∃ x, op = .cancel x ∧ t.owns x = some id := by
  rw [Tracked.exec, Option.map_eq_some_iff] at h
  obtain ⟨r, -, rfl⟩ := h
  have hlog : (id, GuardEvent.cancelled) ∈ (r.2.map GuardEvent.stamp ++ op.cancels t).map (fun e => (op.label t, e)) ↔
      op.label t = id ∧ GuardEvent.cancelled ∈ op.cancels t := by
    simp [and_comm, eq_comm]
  rw [List.mem_append, hlog]
  refine or_congr_right ?_
  cases op with
  | cancel x =>
      simp only [GuardOp.label, GuardOp.cancels, GuardOp.cancel.injEq, exists_eq_left']
      cases howns : t.owns x with
      | none => simp
      | some id' =>
          obtain ⟨_, _, _, hid⟩ := Tracked.owns_eq_some.mp howns
          simp [hid]
  | construct x p q => simp [GuardOp.cancels]
  | moveConstruct x other => simp [GuardOp.cancels]
  | moveAssign x other => simp [GuardOp.cancels]
  | step x n => simp [GuardOp.cancels]
  | destroy x => simp [GuardOp.cancels]

theorem mem_log_run {ops : List (GuardOp Obj)} {t t' : Tracked Obj} (hrun : (guards Obj).run ops t = some t') {id : Nat} :
    (id, .cancelled) ∈ t'.log ↔ (id, .cancelled) ∈ t.log ∨ CancelledBy t ops id := by
  induction ops generalizing t with
  | nil =>
      cases hrun
      simp [not_cancelledBy_nil]
  | cons op ops ih =>
      rw [System.run, Option.bind_eq_some_iff] at hrun
      obtain ⟨t₁, hexec, hrun⟩ := hrun
      rw [ih hrun, mem_log_exec hexec, or_assoc, cancelledBy_cons hexec]

theorem spans_run {ops : List (GuardOp Obj)} {t t' : Tracked Obj} (hrun : (guards Obj).run ops t = some t') :
    t'.spans = t.spans ++ ops.filterMap GuardOp.constructed := by
  induction ops generalizing t with
  | nil =>
      cases hrun
      simp
  | cons op ops ih =>
      rw [System.run, Option.bind_eq_some_iff] at hrun
      obtain ⟨t₁, hexec, hrun⟩ := hrun
      have hspans : t₁.spans = t.spans ++ op.constructed.toList := by
        change t.exec op = some t₁ at hexec
        rw [Tracked.exec, Option.map_eq_some_iff] at hexec
        obtain ⟨r, -, rfl⟩ := hexec
        rfl
      rw [ih hrun, hspans, List.append_assoc]
      cases hop : op.constructed <;> simp [hop]

/-! ## The account of every span -/

namespace Tracked

/-- The end stamps of a span. -/
def ends (t : Tracked Obj) (id : Nat) : List GuardStamp := (t.closings id).filterMap GuardEvent.taken

/-- What a program has made of its spans. -/
structure OneEnd (ops : List (GuardOp Obj)) (t : Tracked Obj) : Prop where
  /-- Every end stamp is that of a span that was constructed, with its point and its seq. -/
  known : ∀ id p q, (id, .stamp (.endSpan p q)) ∈ t.log → t.spans[id]? = some (p, q)
  once : ∀ id, (t.ends id).length ≤ 1
  after : ∀ id p q, .endSpan p q ∈ t.ends id →
    [(id, .stamp (.beginSpan p q)), (id, .stamp (.endSpan p q))].Sublist t.log
  cancelled : ∀ id, CancelledBy .start ops id → t.ends id = []
  /-- Until then one armed guard owns it, and an armed guard owns nothing else. -/
  owned : ∀ id, id < t.spans.length → t.ends id = [] → ¬ CancelledBy .start ops id → ∃! x, t.owns x = some id
  owner : ∀ x id, t.owns x = some id → id < t.spans.length ∧ t.ends id = [] ∧ ¬ CancelledBy .start ops id
  ended : (∀ x, t.objects x = none) → ∀ id p q, t.spans[id]? = some (p, q) → ¬ CancelledBy .start ops id →
    t.ends id = [.endSpan p q]

/-- Of pairs with different keys one has the key. -/
theorem filter_key {β : Type} {l : List (Nat × β)} (h : (l.map Prod.fst).Nodup) {e : Nat × β} (he : e ∈ l) :
    l.filter (fun e' => e'.1 = e.1) = [e] := by
  induction l with
  | nil => cases he
  | cons a l ih =>
      rw [List.map_cons, List.nodup_cons] at h
      rcases List.mem_cons.mp he with rfl | hmem
      · rw [List.filter_cons_of_pos (by simp), List.filter_eq_nil_iff.mpr]
        intro e' he' heq
        exact h.1 (List.mem_map.mpr ⟨e', he', of_decide_eq_true heq⟩)
      · rw [List.filter_cons_of_neg, ih h.2 hmem]
        intro heq
        exact h.1 (List.mem_map.mpr ⟨e, hmem, (of_decide_eq_true heq).symm⟩)

omit [DecidableEq Obj] in
theorem Kept.closings_of_mem {t : Tracked Obj} (h : t.Kept) {id : Nat} {e : GuardEvent} (hmem : (id, e) ∈ t.log)
    (hcloses : e.closes) : t.closings id = [e] := by
  have hclosing : (id, e) ∈ t.log.filter fun e => e.2.closes := List.mem_filter.mpr ⟨hmem, hcloses⟩
  have hfilter := filter_key h.sound.once hclosing
  rw [List.filter_filter] at hfilter
  rw [closings]
  simp only [Bool.decide_and, Bool.decide_eq_true, hfilter, List.map_cons, List.map_nil]

omit [DecidableEq Obj] in
theorem closings_eq_nil {t : Tracked Obj} {id : Nat} : t.closings id = [] ↔ id ∉ t.custody.returned := by
  rw [closings, List.map_eq_nil_iff, List.filter_eq_nil_iff]
  simp only [custody, List.mem_map, List.mem_filter, not_exists, not_and, decide_eq_true_eq]
  constructor
  · intro h e he hid
    exact h e he.1 hid he.2
  · intro h e he hid hcloses
    exact h e ⟨he, hcloses⟩ hid

omit [DecidableEq Obj] in
/-- Nothing has closed the span, or it was cancelled, or its end stamp was taken. -/
theorem Kept.closings_cases {t : Tracked Obj} (h : t.Kept) (id : Nat) :
    t.closings id = [] ∨ (t.closings id = [.cancelled] ∧ (id, .cancelled) ∈ t.log) ∨
      ∃ p q, t.closings id = [.stamp (.endSpan p q)] ∧ (id, .stamp (.endSpan p q)) ∈ t.log := by
  by_cases hret : id ∈ t.custody.returned
  · right
    obtain ⟨⟨id', e⟩, he, rfl⟩ := List.mem_map.mp hret
    obtain ⟨hmem, hcloses⟩ := List.mem_filter.mp he
    have hone := h.closings_of_mem hmem hcloses
    cases e with
    | cancelled => exact Or.inl ⟨hone, hmem⟩
    | stamp s =>
        cases s with
        | endSpan p q => exact Or.inr ⟨p, q, hone, hmem⟩
        | beginSpan p q => cases hcloses
        | step p n q => cases hcloses
  · exact Or.inl (closings_eq_nil.mpr hret)

theorem mem_log_cancelled {ops : List (GuardOp Obj)} {t : Tracked Obj} (hrun : (guards Obj).run ops .start = some t)
    {id : Nat} : (id, .cancelled) ∈ t.log ↔ CancelledBy .start ops id := by
  rw [mem_log_run hrun]
  exact or_iff_right List.not_mem_nil

/-- The span is open until a cancellation or its end stamp. -/
theorem Kept.closings_eq_nil_iff {ops : List (GuardOp Obj)} {t : Tracked Obj} (h : t.Kept)
    (hrun : (guards Obj).run ops .start = some t) {id : Nat} :
    t.closings id = [] ↔ t.ends id = [] ∧ ¬ CancelledBy .start ops id := by
  rw [← mem_log_cancelled hrun]
  constructor
  · intro hnil
    refine ⟨by rw [ends, hnil]; rfl, fun hmem => ?_⟩
    rw [h.closings_of_mem hmem rfl] at hnil
    cases hnil
  · rintro ⟨hends, hlog⟩
    rcases h.closings_cases id with hnil | ⟨-, hmem⟩ | ⟨p, q, hone, -⟩
    · exact hnil
    · exact absurd hmem hlog
    · rw [ends, hone] at hends
      cases hends

omit [DecidableEq Obj] in
/-- An end stamp of a span is the only one. -/
theorem Kept.mem_ends {t : Tracked Obj} (h : t.Kept) {id : Nat} {s : GuardStamp} (hs : s ∈ t.ends id) :
    ∃ p q, s = .endSpan p q ∧ t.ends id = [s] ∧ (id, .stamp s) ∈ t.log := by
  rcases h.closings_cases id with hnil | ⟨hone, -⟩ | ⟨p, q, hone, hmem⟩
  · rw [ends, hnil] at hs
    cases hs
  · rw [ends, hone] at hs
    cases hs
  · have hlist : t.ends id = [.endSpan p q] := by
      rw [ends, hone]
      rfl
    rw [hlist, List.mem_singleton] at hs
    subst hs
    exact ⟨p, q, rfl, hlist, hmem⟩

theorem Kept.oneEnd {ops : List (GuardOp Obj)} {t : Tracked Obj} (h : t.Kept)
    (hrun : (guards Obj).run ops .start = some t) : t.OneEnd ops where
  known id p q hmem := (h.ended id p q hmem).1
  once id := by
    cases hlist : t.ends id with
    | nil => exact Nat.zero_le 1
    | cons s l =>
        obtain ⟨p, q, -, hone, -⟩ := h.mem_ends (hlist ▸ List.mem_cons_self)
        rw [← hlist, hone]
        exact Nat.le_refl 1
  after id p q hs := by
    obtain ⟨-, -, -, -, hmem⟩ := h.mem_ends hs
    exact (h.ended id p q hmem).2
  cancelled id hcancel := by
    rw [ends, h.closings_of_mem ((mem_log_cancelled hrun).mpr hcancel) rfl]
    rfl
  owned id hid hnil hcancel := h.sound.existsUnique (List.mem_range.mpr hid)
    (closings_eq_nil.mp ((h.closings_eq_nil_iff hrun).mpr ⟨hnil, hcancel⟩))
  owner x id howns := by
    obtain ⟨hissued, hret⟩ := h.sound.out x id howns
    exact ⟨List.mem_range.mp hissued, (h.closings_eq_nil_iff hrun).mp (closings_eq_nil.mpr hret)⟩
  ended hgone id p q hid hcancel := by
    have hret := h.sound.mem_returned (fun x => owns_of_none (hgone x))
      (List.mem_range.mpr (List.getElem?_eq_some_iff.mp hid).1)
    rcases h.closings_cases id with hnil | ⟨-, hmem⟩ | ⟨p', q', hone, hmem⟩
    · exact absurd hret (closings_eq_nil.mp hnil)
    · exact absurd ((mem_log_cancelled hrun).mp hmem) hcancel
    · have hown := hid.symm.trans (h.ended id p' q' hmem).1
      cases hown
      rw [ends, hone]
      rfl

end Tracked

/-- However the guards of a program travel, each span has one end stamp, its own, unless it was cancelled by the guard
that owned it, and until then one armed guard owns it. -/
theorem one_end_stamp {ops : List (GuardOp Obj)} {objects : Obj → Option ScopedSample} {stamps : List GuardStamp}
    (hrun : GuardOp.execAll (fun _ => none) [] ops = some (objects, stamps)) :
    ∃ t, (guards Obj).run ops .start = some t ∧ t.objects = objects ∧ t.stamps = stamps ∧
      t.spans = ops.filterMap GuardOp.constructed ∧ t.OneEnd ops := by
  obtain ⟨t, ht, hobjects, hstamps⟩ := tracked_of_execAll (t := .start) hrun
  exact ⟨t, ht, hobjects, hstamps, spans_run ht, (Tracked.Kept.of_run ht).oneEnd ht⟩

end Runs

/-- A guard is overwritten by another, which then moves on, is assigned to itself and is destroyed; a third is
cancelled. -/
def movedProgram : List (GuardOp Nat) :=
  [.construct 0 7 1, .construct 1 8 2, .moveAssign 0 1, .moveConstruct 2 0, .step 2 3, .moveAssign 2 2, .construct 3 9 5,
    .cancel 3, .destroy 3, .destroy 2, .destroy 1, .destroy 0]

theorem one_end_stamp_moved : ∃ t, (guards Nat).run movedProgram .start = some t ∧
    t.stamps = [.beginSpan 7 1, .beginSpan 8 2, .endSpan 7 1, .step 8 3 2, .beginSpan 9 5, .endSpan 8 2] ∧
    t.spans = [(7, 1), (8, 2), (9, 5)] ∧ t.OneEnd movedProgram := by
  have hrun : GuardOp.execAll (fun _ => none) [] movedProgram = some (_,
      [.beginSpan 7 1, .beginSpan 8 2, .endSpan 7 1, .step 8 3 2, .beginSpan 9 5, .endSpan 8 2]) := rfl
  obtain ⟨t, ht, -, hstamps, hspans, hone⟩ := one_end_stamp hrun
  exact ⟨t, ht, hstamps, hspans, hone⟩

end SlickPerfmon
