import SlickPerfmon.Scoped.ScopedSample

/-!
# Whose span it is

A span is the number of the construction that began it. The number goes wherever the point and the seq of that
construction go, and each stamp is marked with the number its guard carries. The marks change nothing of what the
program does.
-/

namespace SlickPerfmon

open Library

/-- What is recorded of a span: its stamps, and that a guard that owned it was cancelled. -/
inductive GuardEvent
  | stamp (s : GuardStamp)
  | cancelled
deriving DecidableEq, Repr

namespace GuardEvent

/-- After it the span is owned no more. -/
def closes : GuardEvent → Bool
  | .stamp (.endSpan _ _) => true
  | .stamp _ => false
  | .cancelled => true

def taken : GuardEvent → Option GuardStamp
  | .stamp s => some s
  | .cancelled => none

end GuardEvent

variable {Obj : Type}

/-- A program under way. -/
structure Tracked (Obj : Type) where
  objects : Obj → Option ScopedSample
  /-- The construction the object's point and seq come from. -/
  span : Obj → Nat
  /-- The point and the seq of each construction, in order. -/
  spans : List (UInt32 × UInt32)
  log : List (Nat × GuardEvent)

namespace Tracked

def start : Tracked Obj := ⟨fun _ => none, fun _ => 0, [], []⟩

/-- The span of an armed guard. -/
def owns (t : Tracked Obj) (x : Obj) : Option Nat :=
  (t.objects x).bind fun g => if g.armed then some (t.span x) else none

/-- The stamps the program has taken. -/
def stamps (t : Tracked Obj) : List GuardStamp := t.log.filterMap fun e => e.2.taken

/-- What has closed a span. -/
def closings (t : Tracked Obj) (id : Nat) : List GuardEvent :=
  (t.log.filter fun e => e.1 = id ∧ e.2.closes).map Prod.snd

end Tracked

namespace GuardOp

/-- The construction, if it is one. -/
def constructed : GuardOp Obj → Option (UInt32 × UInt32)
  | .construct _ point seq => some (point, seq)
  | _ => none

/-- The span the stamps of the operation are marked with, that of the object its member runs on. -/
def label (t : Tracked Obj) : GuardOp Obj → Nat
  | .construct _ _ _ => t.spans.length
  | .moveConstruct x _ | .moveAssign x _ | .step x _ | .cancel x | .destroy x => t.span x

/-- `cancel()` on a guard that owns its span. -/
def cancels (t : Tracked Obj) : GuardOp Obj → List GuardEvent
  | .cancel x => if (t.owns x).isSome then [.cancelled] else []
  | _ => []

variable [DecidableEq Obj]

/-- The numbers after the operation: they go with the points. -/
def carry (t : Tracked Obj) : GuardOp Obj → Obj → Nat
  | .construct x _ _ => Function.update t.span x t.spans.length
  | .moveConstruct x other | .moveAssign x other => Function.update t.span x (t.span other)
  | .step _ _ | .cancel _ | .destroy _ => t.span

end GuardOp

section Runs

variable [DecidableEq Obj]

def Tracked.exec (op : GuardOp Obj) (t : Tracked Obj) : Option (Tracked Obj) :=
  (op.exec t.objects).map fun r =>
    { objects := r.1
      span := op.carry t
      spans := t.spans ++ op.constructed.toList
      log := t.log ++ (r.2.map .stamp ++ op.cancels t).map fun e => (op.label t, e) }

def guards (Obj : Type) [DecidableEq Obj] : System (Tracked Obj) (GuardOp Obj) where
  Init t := t = .start
  step := Tracked.exec

/-! ## The marks change nothing -/

theorem stamps_exec {op : GuardOp Obj} {t : Tracked Obj} {objects : Obj → Option ScopedSample} {new : List GuardStamp}
    (h : op.exec t.objects = some (objects, new)) :
    ∃ t', t.exec op = some t' ∧ t'.objects = objects ∧ t'.stamps = t.stamps ++ new := by
  refine ⟨_, by rw [Tracked.exec, h]; rfl, rfl, ?_⟩
  have hnew : (new.map GuardEvent.stamp).filterMap GuardEvent.taken = new := by
    rw [List.filterMap_map]
    exact List.filterMap_some
  have hcancels : (op.cancels t).filterMap GuardEvent.taken = [] := by
    cases op <;> simp only [GuardOp.cancels, List.filterMap_nil]
    split <;> rfl
  rw [Tracked.stamps, Tracked.stamps, List.filterMap_append, List.filterMap_map]
  congr 1
  change (new.map GuardEvent.stamp ++ op.cancels t).filterMap GuardEvent.taken = new
  rw [List.filterMap_append, hnew, hcancels, List.append_nil]

/-- The program runs as it does without them. -/
theorem tracked_of_execAll {ops : List (GuardOp Obj)} {t : Tracked Obj} {objects : Obj → Option ScopedSample}
    {stamps : List GuardStamp} (h : GuardOp.execAll t.objects t.stamps ops = some (objects, stamps)) :
    ∃ t', (guards Obj).run ops t = some t' ∧ t'.objects = objects ∧ t'.stamps = stamps := by
  induction ops generalizing t with
  | nil =>
      cases h
      exact ⟨t, rfl, rfl, rfl⟩
  | cons op ops ih =>
      rw [GuardOp.execAll, Option.bind_eq_some_iff] at h
      obtain ⟨⟨objects₁, new⟩, h₁, h₂⟩ := h
      obtain ⟨t₁, hstep, rfl, hstamps⟩ := stamps_exec h₁
      rw [← hstamps] at h₂
      obtain ⟨t', hrun, hend⟩ := ih h₂
      refine ⟨t', ?_, hend⟩
      rw [System.run]
      change (t.exec op).bind _ = _
      rw [hstep]
      exact hrun

/-! ## Whose span it is -/

namespace Tracked

/-- A span is in the custody of the armed guard that carries its number, until something closes it. -/
def custody (t : Tracked Obj) : Custody Obj Nat :=
  ⟨t.owns, List.range t.spans.length, (t.log.filter fun e => e.2.closes).map Prod.fst⟩

structure Kept (t : Tracked Obj) : Prop where
  sound : t.custody.Sound
  own : ∀ x g, t.objects x = some g → t.spans[t.span x]? = some (g.point, g.seq)
  begun : ∀ id p q, t.spans[id]? = some (p, q) → (id, .stamp (.beginSpan p q)) ∈ t.log
  ended : ∀ id p q, (id, .stamp (.endSpan p q)) ∈ t.log → t.spans[id]? = some (p, q) ∧
    [(id, .stamp (.beginSpan p q)), (id, .stamp (.endSpan p q))].Sublist t.log

omit [DecidableEq Obj] in
theorem Kept.start : (Tracked.start : Tracked Obj).Kept where
  sound := Custody.Sound.empty
  own x g h := by cases h
  begun id p q h := by simp [Tracked.start] at h
  ended id p q h := by cases h

/-! ### What an operation does -/

variable {t t' : Tracked Obj} {x other : Obj}

theorem exec_construct {p q : UInt32} (h : t.exec (.construct x p q) = some t') : t.objects x = none ∧
    t' = { objects := Function.update t.objects x (some ⟨p, q, true⟩)
           span := Function.update t.span x t.spans.length
           spans := t.spans ++ [(p, q)]
           log := t.log ++ [(t.spans.length, .stamp (.beginSpan p q))] } := by
  rw [Tracked.exec, Option.map_eq_some_iff] at h
  obtain ⟨r, hr, rfl⟩ := h
  simp only [GuardOp.exec] at hr
  split at hr
  · rename_i hx
    cases hr
    exact ⟨Option.isNone_iff_eq_none.mp hx, rfl⟩
  · cases hr

theorem exec_moveConstruct (h : t.exec (.moveConstruct x other) = some t') :
    ∃ o, t.objects x = none ∧ t.objects other = some o ∧
      t' = { t with
        objects := Function.update (Function.update t.objects other (some { o with armed := false })) x (some o)
        span := Function.update t.span x (t.span other) } := by
  rw [Tracked.exec, Option.map_eq_some_iff] at h
  obtain ⟨r, hr, rfl⟩ := h
  simp only [GuardOp.exec, Option.bind_eq_some_iff] at hr
  obtain ⟨o, ho, hr⟩ := hr
  split at hr
  · rename_i hx
    cases hr
    refine ⟨o, Option.isNone_iff_eq_none.mp hx, ho, ?_⟩
    simp [GuardOp.constructed, GuardOp.cancels, GuardOp.carry, ScopedSample.moveConstruct]
  · cases hr

theorem exec_moveAssign (h : t.exec (.moveAssign x other) = some t') :
    ∃ g o, t.objects x = some g ∧ t.objects other = some o ∧ ((x = other ∧ t' = t) ∨ (x ≠ other ∧
      t' = { t with
        objects := Function.update (Function.update t.objects other (some { o with armed := false })) x (some o)
        span := Function.update t.span x (t.span other)
        log := t.log ++ g.destroy.map fun s => (t.span x, .stamp s) })) := by
  rw [Tracked.exec, Option.map_eq_some_iff] at h
  obtain ⟨r, hr, rfl⟩ := h
  simp only [GuardOp.exec, Option.bind_eq_some_iff, Option.map_eq_some_iff] at hr
  obtain ⟨g, hg, o, ho, rfl⟩ := hr
  refine ⟨g, o, hg, ho, ?_⟩
  by_cases hself : x = other
  · subst hself
    left
    simp [GuardOp.constructed, GuardOp.cancels, GuardOp.carry]
  · right
    simp [hself, GuardOp.constructed, GuardOp.cancels, GuardOp.carry, GuardOp.label, ScopedSample.moveAssign,
      ScopedSample.destroy, Function.comp_def]

theorem exec_step {n : UInt8} (h : t.exec (.step x n) = some t') :
    ∃ g, t.objects x = some g ∧ t' = { t with log := t.log ++ [(t.span x, .stamp (.step g.point n g.seq))] } := by
  rw [Tracked.exec, Option.map_eq_some_iff] at h
  obtain ⟨r, hr, rfl⟩ := h
  simp only [GuardOp.exec, Option.map_eq_some_iff] at hr
  obtain ⟨g, hg, rfl⟩ := hr
  exact ⟨g, hg, by simp [GuardOp.constructed, GuardOp.cancels, GuardOp.carry, GuardOp.label, ScopedSample.step]⟩

theorem exec_cancel (h : t.exec (.cancel x) = some t') :
    ∃ g, t.objects x = some g ∧
      t' = { t with
        objects := Function.update t.objects x (some { g with armed := false })
        log := t.log ++ if g.armed then [(t.span x, .cancelled)] else [] } := by
  rw [Tracked.exec, Option.map_eq_some_iff] at h
  obtain ⟨r, hr, rfl⟩ := h
  simp only [GuardOp.exec, Option.map_eq_some_iff] at hr
  obtain ⟨g, hg, rfl⟩ := hr
  refine ⟨g, hg, ?_⟩
  cases harmed : g.armed <;> simp [GuardOp.constructed, GuardOp.cancels, GuardOp.carry, GuardOp.label, owns,
    ScopedSample.cancel, hg, harmed]

theorem exec_destroy (h : t.exec (.destroy x) = some t') :
    ∃ g, t.objects x = some g ∧
      t' = { t with
        objects := Function.update t.objects x none
        log := t.log ++ g.destroy.map fun s => (t.span x, .stamp s) } := by
  rw [Tracked.exec, Option.map_eq_some_iff] at h
  obtain ⟨r, hr, rfl⟩ := h
  simp only [GuardOp.exec, Option.map_eq_some_iff] at hr
  obtain ⟨g, hg, rfl⟩ := hr
  exact ⟨g, hg, by simp [GuardOp.constructed, GuardOp.cancels, GuardOp.carry, GuardOp.label, Function.comp_def]⟩

/-! ### It keeps every span in custody -/

omit [DecidableEq Obj] in
theorem owns_eq_some {id : Nat} : t.owns x = some id ↔ ∃ g, t.objects x = some g ∧ g.armed ∧ t.span x = id := by
  simp only [owns, Option.bind_eq_some_iff]
  constructor
  · rintro ⟨g, hg, hid⟩
    split at hid
    · rename_i harmed
      exact ⟨g, hg, harmed, Option.some.inj hid⟩
    · cases hid
  · rintro ⟨g, hg, harmed, rfl⟩
    exact ⟨g, hg, by rw [if_pos harmed]⟩

omit [DecidableEq Obj] in
theorem owns_of_object {g : ScopedSample} (hx : t.objects x = some g) :
    t.owns x = if g.armed then some (t.span x) else none := by
  rw [owns, hx, Option.bind_some]

omit [DecidableEq Obj] in
theorem owns_of_none (hx : t.objects x = none) : t.owns x = none := by rw [owns, hx, Option.bind_none]

omit [DecidableEq Obj] in
/-- What is logged of ends must be the end of the span it is marked with. -/
theorem Kept.ended_append (h : t.Kept) {new : List (Nat × GuardEvent)}
    (hnew : ∀ id p q, (id, .stamp (.endSpan p q)) ∈ new → t.spans[id]? = some (p, q)) {id : Nat} {p q : UInt32}
    (hend : (id, .stamp (.endSpan p q)) ∈ t.log ++ new) : t.spans[id]? = some (p, q) ∧
      [(id, .stamp (.beginSpan p q)), (id, .stamp (.endSpan p q))].Sublist (t.log ++ new) := by
  rcases List.mem_append.mp hend with hold | hlast
  · obtain ⟨hspan, hsub⟩ := h.ended id p q hold
    exact ⟨hspan, hsub.trans (List.sublist_append_left ..)⟩
  · have hspan := hnew id p q hlast
    have hbegun := List.singleton_sublist.mpr (h.begun id p q hspan)
    exact ⟨hspan, hbegun.append (List.singleton_sublist.mpr hlast)⟩

omit [DecidableEq Obj] in
/-- The end stamp of a guard carries the point and the seq of its span. -/
theorem Kept.ends_own (h : t.Kept) {g : ScopedSample} (hx : t.objects x = some g) (id : Nat) (p q : UInt32)
    (hend : (id, GuardEvent.stamp (.endSpan p q)) ∈ g.destroy.map fun s => (t.span x, GuardEvent.stamp s)) :
    t.spans[id]? = some (p, q) := by
  rw [List.mem_map] at hend
  obtain ⟨s, hs, heq⟩ := hend
  rw [ScopedSample.destroy] at hs
  split at hs
  · rw [List.mem_singleton] at hs
    subst hs
    cases heq
    exact h.own x g hx
  · cases hs

omit [DecidableEq Obj] in
/-- The span of a guard is closed by its end stamp exactly when the guard is armed. -/
theorem closes_destroy {g : ScopedSample} (hx : t.objects x = some g) :
    ((g.destroy.map fun s => (t.span x, GuardEvent.stamp s)).filter fun e => e.2.closes).map Prod.fst =
      (t.owns x).toList := by
  rw [owns_of_object hx, ScopedSample.destroy]
  cases g.armed <;> rfl

omit [DecidableEq Obj] in
theorem spans_append {id : Nat} {v : UInt32 × UInt32} (h : t.spans[id]? = some v) (new : List (UInt32 × UInt32)) :
    (t.spans ++ new)[id]? = some v := by
  rw [List.getElem?_append_left (List.getElem?_eq_some_iff.mp h).1, h]

theorem Kept.construct (h : t.Kept) (hx : t.objects x = none) (p q : UInt32) :
    Kept { objects := Function.update t.objects x (some ⟨p, q, true⟩)
           span := Function.update t.span x t.spans.length
           spans := t.spans ++ [(p, q)]
           log := t.log ++ [(t.spans.length, .stamp (.beginSpan p q))] } where
  sound := by
    have hissue := h.sound.issue (r := t.spans.length) (owns_of_none hx) List.not_mem_range_self
    convert hissue using 1
    rw [custody, Custody.issue, Custody.mk.injEq]
    refine ⟨?_, ?_, ?_⟩
    · funext z
      by_cases hz : z = x
      · subst hz
        simp [owns]
      · simp [owns, custody, hz]
    · simp [custody, List.range_succ]
    · simp [custody, GuardEvent.closes]
  own z g hz := by
    dsimp only at hz ⊢
    by_cases hzx : z = x
    · subst hzx
      rw [Function.update_self] at hz ⊢
      cases hz
      exact List.getElem?_concat_length
    · rw [Function.update_of_ne hzx] at hz ⊢
      exact spans_append (h.own z g hz) _
  begun id p' q' hid := by
    dsimp only at hid ⊢
    rcases Nat.lt_or_ge id t.spans.length with hlt | hge
    · rw [List.getElem?_append_left hlt] at hid
      exact List.mem_append_left _ (h.begun id p' q' hid)
    · rw [List.getElem?_append_right hge] at hid
      obtain ⟨hid, hpq⟩ := List.getElem?_eq_some_iff.mp hid
      rw [List.length_singleton] at hid
      obtain rfl : id = t.spans.length := by omega
      simp only [Nat.sub_self, List.getElem_cons_zero, Prod.mk.injEq] at hpq
      obtain ⟨rfl, rfl⟩ := hpq
      exact List.mem_append_right _ (List.mem_singleton_self _)
  ended id p' q' hend := by
    obtain ⟨hspan, hsub⟩ := h.ended_append (fun id p' q' hnew => by
      rw [List.mem_singleton] at hnew
      cases hnew) hend
    exact ⟨spans_append hspan _, hsub⟩

omit [DecidableEq Obj] in
/-- Every other operation leaves the spans, and logs no end but of a span the guard carries. -/
theorem Kept.append (h : t.Kept) {objects : Obj → Option ScopedSample} {span : Obj → Nat} {new : List (Nat × GuardEvent)}
    (hsound : Custody.Sound (custody { t with objects := objects, span := span, log := t.log ++ new }))
    (hown : ∀ x g, objects x = some g → t.spans[span x]? = some (g.point, g.seq))
    (hnew : ∀ id p q, (id, GuardEvent.stamp (.endSpan p q)) ∈ new → t.spans[id]? = some (p, q)) :
    Kept { t with objects := objects, span := span, log := t.log ++ new } where
  sound := hsound
  own := hown
  begun id p q hid := List.mem_append_left _ (h.begun id p q hid)
  ended _ _ _ hend := h.ended_append hnew hend

/-- Two objects after a move: the point, the seq and the number went from one to the other together. -/
theorem Kept.own_moved (h : t.Kept) {o : ScopedSample} (ho : t.objects other = some o) (z : Obj) (g : ScopedSample)
    (hz : Function.update (Function.update t.objects other (some { o with armed := false })) x (some o) z = some g) :
    t.spans[Function.update t.span x (t.span other) z]? = some (g.point, g.seq) := by
  have hown := h.own other o ho
  by_cases hzx : z = x
  · subst hzx
    rw [Function.update_self] at hz ⊢
    cases hz
    exact hown
  · rw [Function.update_of_ne hzx] at hz ⊢
    by_cases hzo : z = other
    · subst hzo
      rw [Function.update_self] at hz
      cases hz
      exact hown
    · rw [Function.update_of_ne hzo] at hz
      exact h.own z g hz

/-- And so did the span. -/
theorem owns_moved {o : ScopedSample} (ho : t.objects other = some o) (hx : x ≠ other)
    (log : List (Nat × GuardEvent)) :
    owns { t with
      objects := Function.update (Function.update t.objects other (some { o with armed := false })) x (some o)
      span := Function.update t.span x (t.span other)
      log := log } = Function.update (Function.update t.owns other none) x (t.owns other) := by
  funext z
  by_cases hzx : z = x
  · subst hzx
    simp [owns, ho]
  · by_cases hzo : z = other
    · subst hzo
      simp [owns, hzx]
    · simp [owns, hzx, hzo]

theorem Kept.moveConstruct (h : t.Kept) {o : ScopedSample} (hx : t.objects x = none) (ho : t.objects other = some o) :
    Kept { t with
      objects := Function.update (Function.update t.objects other (some { o with armed := false })) x (some o)
      span := Function.update t.span x (t.span other) } := by
  have hne : x ≠ other := by
    rintro rfl
    rw [hx] at ho
    cases ho
  rw [← List.append_nil t.log]
  refine h.append ?_ (h.own_moved ho) (fun _ _ _ hnew => by cases hnew)
  have hpass := h.sound.pass (x := x) (owns_of_none hx) other
  convert hpass using 1
  rw [custody, owns_moved ho hne, List.append_nil]
  rfl

theorem Kept.moveAssign (h : t.Kept) {g o : ScopedSample} (hx : t.objects x = some g) (ho : t.objects other = some o)
    (hne : x ≠ other) :
    Kept { t with
      objects := Function.update (Function.update t.objects other (some { o with armed := false })) x (some o)
      span := Function.update t.span x (t.span other)
      log := t.log ++ g.destroy.map fun s => (t.span x, .stamp s) } := by
  refine h.append ?_ (h.own_moved ho) (h.ends_own hx)
  -- the guard gives up its own span before it takes the other's
  have hpass := (h.sound.giveBack x).pass (x := x) (Function.update_self ..) other
  convert hpass using 1
  rw [custody, owns_moved ho hne, List.filter_append, List.map_append, closes_destroy hx, Custody.pass, Custody.giveBack,
    Custody.mk.injEq]
  refine ⟨?_, rfl, rfl⟩
  funext z
  by_cases hzx : z = x
  · subst hzx
    simp [custody, hne.symm]
  · simp [custody, Function.update_apply, hzx]

omit [DecidableEq Obj] in
theorem Kept.step (h : t.Kept) (p q : UInt32) (n : UInt8) :
    Kept { t with log := t.log ++ [(t.span x, .stamp (.step p n q))] } := by
  refine h.append ?_ h.own ?_
  · convert h.sound using 1
    rw [custody, List.filter_append, List.map_append]
    simp [custody, GuardEvent.closes]
    rfl
  · intro id p' q' hnew
    rw [List.mem_singleton] at hnew
    cases hnew

/-- An object that is gone or disarmed owns nothing, and gives back what it owned. -/
theorem Kept.release (h : t.Kept) {o : Option ScopedSample} {new : List (Nat × GuardEvent)}
    (ho : ∀ g, o = some g → g.armed = false ∧ t.spans[t.span x]? = some (g.point, g.seq))
    (hnew : ∀ id p q, (id, GuardEvent.stamp (.endSpan p q)) ∈ new → t.spans[id]? = some (p, q))
    (hback : (new.filter fun e => e.2.closes).map Prod.fst = (t.owns x).toList) :
    Kept { t with objects := Function.update t.objects x o, log := t.log ++ new } := by
  refine h.append ?_ ?_ hnew
  · have hsound := h.sound.giveBack x
    convert hsound using 1
    rw [custody, List.filter_append, List.map_append, hback, Custody.giveBack, Custody.mk.injEq]
    refine ⟨?_, rfl, rfl⟩
    funext z
    by_cases hzx : z = x
    · subst hzx
      rw [Function.update_self]
      cases o with
      | none => exact owns_of_none (Function.update_self ..)
      | some g =>
          rw [owns_of_object (Function.update_self ..), (ho g rfl).1]
          rfl
    · simp [custody, owns, hzx]
  · intro z g hz
    by_cases hzx : z = x
    · subst hzx
      rw [Function.update_self] at hz
      exact (ho g hz).2
    · rw [Function.update_of_ne hzx] at hz
      exact h.own z g hz

theorem Kept.cancel (h : t.Kept) {g : ScopedSample} (hx : t.objects x = some g) :
    Kept { t with
      objects := Function.update t.objects x (some { g with armed := false })
      log := t.log ++ if g.armed then [(t.span x, .cancelled)] else [] } := by
  refine h.release ?_ ?_ ?_
  · intro g' hg'
    cases hg'
    exact ⟨rfl, h.own x g hx⟩
  · intro id p q hnew
    split at hnew
    · rw [List.mem_singleton] at hnew
      cases hnew
    · cases hnew
  · rw [owns_of_object hx]
    cases g.armed <;> rfl

theorem Kept.destroy (h : t.Kept) {g : ScopedSample} (hx : t.objects x = some g) :
    Kept { t with
      objects := Function.update t.objects x none
      log := t.log ++ g.destroy.map fun s => (t.span x, .stamp s) } :=
  h.release (fun _ hg => by cases hg) (h.ends_own hx) (closes_destroy hx)

/-- One operation keeps the custody of the spans. -/
theorem Kept.exec (h : t.Kept) {op : GuardOp Obj} (hexec : t.exec op = some t') : t'.Kept := by
  cases op with
  | construct x p q =>
      obtain ⟨hx, rfl⟩ := exec_construct hexec
      exact h.construct hx p q
  | moveConstruct x other =>
      obtain ⟨o, hx, ho, rfl⟩ := exec_moveConstruct hexec
      exact h.moveConstruct hx ho
  | moveAssign x other =>
      obtain ⟨g, o, hx, ho, ⟨_, rfl⟩ | ⟨hne, rfl⟩⟩ := exec_moveAssign hexec
      · exact h
      · exact h.moveAssign hx ho hne
  | step x n =>
      obtain ⟨g, _, rfl⟩ := exec_step hexec
      exact h.step g.point g.seq n
  | cancel x =>
      obtain ⟨g, hx, rfl⟩ := exec_cancel hexec
      exact h.cancel hx
  | destroy x =>
      obtain ⟨g, hx, rfl⟩ := exec_destroy hexec
      exact h.destroy hx

theorem Kept.of_run {ops : List (GuardOp Obj)} (hrun : (guards Obj).run ops .start = some t) : t.Kept :=
  (System.Reachable.run (.init rfl) hrun).invariant (fun _ h0 => h0 ▸ Kept.start) fun _ _ _ h hexec => h.exec hexec

end Tracked

end Runs

end SlickPerfmon
