import SlickPerfmon.Library.Custody
import SlickPerfmon.Library.TransitionSystem
import SlickPerfmon.Pairing.Stamp

/-!
# `ScopedSample`

The members of the guard, and the programs over any number of guards. A program is one the language allows: a member
runs on a live object, and an object is constructed where none is.
-/

namespace SlickPerfmon

/-- The calls a guard makes. -/
inductive GuardStamp
  | beginSpan (point seq : UInt32)
  | step (point : UInt32) (n : UInt8) (seq : UInt32)
  | endSpan (point seq : UInt32)
deriving DecidableEq, Repr

/-- The event word the call stamps. -/
def GuardStamp.event : GuardStamp → UInt32
  | .beginSpan _ seq => makeEvent kBeginStep seq
  | .step _ n seq => makeEvent n seq
  | .endSpan _ seq => makeEvent kEndStep seq

structure ScopedSample where
  point : UInt32
  seq : UInt32
  armed : Bool
deriving DecidableEq, Repr

namespace ScopedSample

/-- `ScopedSample(p, seq)`. -/
def construct (p seq : UInt32) : ScopedSample × List GuardStamp := (⟨p, seq, true⟩, [.beginSpan p seq])

/-- `~ScopedSample()`. -/
def destroy (g : ScopedSample) : List GuardStamp := if g.armed then [.endSpan g.point g.seq] else []

/-- `ScopedSample(std::move(other))`: the new guard, and what is left of `other`. -/
def moveConstruct (other : ScopedSample) : ScopedSample × ScopedSample :=
  (⟨other.point, other.seq, other.armed⟩, { other with armed := false })

/-- `*this = std::move(other)` of two objects: both of them after it, and the stamps. -/
def moveAssign (g other : ScopedSample) : ScopedSample × ScopedSample × List GuardStamp :=
  let stamps := if g.armed then [.endSpan g.point g.seq] else []
  (⟨other.point, other.seq, other.armed⟩, { other with armed := false }, stamps)

def step (g : ScopedSample) (n : UInt8) : List GuardStamp := [.step g.point n g.seq]

def cancel (g : ScopedSample) : ScopedSample := { g with armed := false }

end ScopedSample

/-! ## Programs -/

/-- What a program does with guards; objects go by their names. -/
inductive GuardOp (Obj : Type)
  | construct (x : Obj) (point seq : UInt32)
  | moveConstruct (x other : Obj)
  | moveAssign (x other : Obj)
  | step (x : Obj) (n : UInt8)
  | cancel (x : Obj)
  | destroy (x : Obj)
deriving Repr

section Programs

variable {Obj : Type} [DecidableEq Obj]

/-- The objects after an operation and the stamps it takes; nothing when the language does not allow it. -/
def GuardOp.exec (objects : Obj → Option ScopedSample) :
    GuardOp Obj → Option ((Obj → Option ScopedSample) × List GuardStamp)
  | .construct x point seq =>
      let made := ScopedSample.construct point seq
      if (objects x).isNone then some (Function.update objects x (some made.1), made.2) else none
  | .moveConstruct x other =>
      (objects other).bind fun o =>
        let moved := o.moveConstruct
        if (objects x).isNone then
          some (Function.update (Function.update objects other (some moved.2)) x (some moved.1), [])
        else none
  | .moveAssign x other =>
      (objects x).bind fun g => (objects other).map fun o =>
        if x = other then (objects, [])
        else
          let moved := g.moveAssign o
          (Function.update (Function.update objects other (some moved.2.1)) x (some moved.1), moved.2.2)
  | .step x n => (objects x).map fun g => (objects, g.step n)
  | .cancel x => (objects x).map fun g => (Function.update objects x (some g.cancel), [])
  | .destroy x => (objects x).map fun g => (Function.update objects x none, g.destroy)

/-- The objects and the stamps after a whole program. -/
def GuardOp.execAll (objects : Obj → Option ScopedSample) (stamps : List GuardStamp) :
    List (GuardOp Obj) → Option ((Obj → Option ScopedSample) × List GuardStamp)
  | [] => some (objects, stamps)
  | op :: ops => (op.exec objects).bind fun r => execAll r.1 (stamps ++ r.2) ops

/-! ## What the stamps read as -/

omit [DecidableEq Obj] in
theorem stepOf_makeEvent_masked (step : UInt8) (seq : UInt32) : stepOf (makeEvent step seq) = step := by
  have hmask : makeEvent step seq = makeEvent step (seq &&& kMaxSeq) := by
    rw [makeEvent, makeEvent, UInt32.and_assoc, UInt32.and_self]
  have hfits : (seq &&& kMaxSeq).toNat < 2 ^ 24 := by
    rw [UInt32.toNat_and]
    exact Nat.lt_of_le_of_lt Nat.and_le_right (by decide)
  rw [hmask, stepOf_makeEvent hfits]

/-- A step stamp names the number it was given. -/
theorem step_mem_exec {op : GuardOp Obj} {objects objects' : Obj → Option ScopedSample} {stamps : List GuardStamp}
    (h : op.exec objects = some (objects', stamps)) {p q : UInt32} {n : UInt8} (hmem : .step p n q ∈ stamps) :
    ∃ x, op = .step x n := by
  cases op with
  | construct x p' q' =>
      simp only [GuardOp.exec, Option.ite_none_right_eq_some, Option.some.injEq, Prod.mk.injEq] at h
      obtain ⟨-, -, rfl⟩ := h
      simp [ScopedSample.construct] at hmem
  | moveConstruct x other =>
      simp only [GuardOp.exec, Option.bind_eq_some_iff, Option.ite_none_right_eq_some, Option.some.injEq,
        Prod.mk.injEq] at h
      obtain ⟨_, _, _, _, rfl⟩ := h
      cases hmem
  | moveAssign x other =>
      simp only [GuardOp.exec, Option.bind_eq_some_iff, Option.map_eq_some_iff] at h
      obtain ⟨g, -, o, -, h⟩ := h
      split at h
      · cases h
        cases hmem
      · cases h
        simp only [ScopedSample.moveAssign] at hmem
        split at hmem <;> simp at hmem
  | step x m =>
      simp only [GuardOp.exec, Option.map_eq_some_iff, Prod.mk.injEq] at h
      obtain ⟨g, -, -, rfl⟩ := h
      simp only [ScopedSample.step, List.mem_singleton, GuardStamp.step.injEq] at hmem
      exact ⟨x, by rw [hmem.2.1]⟩
  | cancel x =>
      simp only [GuardOp.exec, Option.map_eq_some_iff, Prod.mk.injEq] at h
      obtain ⟨g, -, -, rfl⟩ := h
      cases hmem
  | destroy x =>
      simp only [GuardOp.exec, Option.map_eq_some_iff, Prod.mk.injEq] at h
      obtain ⟨g, -, -, rfl⟩ := h
      simp only [ScopedSample.destroy] at hmem
      split at hmem <;> simp at hmem

theorem step_mem_execAll {ops : List (GuardOp Obj)} {objects objects' : Obj → Option ScopedSample}
    {before stamps : List GuardStamp} (h : GuardOp.execAll objects before ops = some (objects', stamps)) {p q : UInt32}
    {n : UInt8} (hmem : .step p n q ∈ stamps) : .step p n q ∈ before ∨ ∃ x, .step x n ∈ ops := by
  induction ops generalizing objects before with
  | nil =>
      cases h
      exact Or.inl hmem
  | cons op ops ih =>
      rw [GuardOp.execAll, Option.bind_eq_some_iff] at h
      obtain ⟨⟨objects₁, new⟩, hexec, hrest⟩ := h
      rcases ih hrest with hmem | ⟨x, hx⟩
      · rcases List.mem_append.mp hmem with hold | hnew
        · exact Or.inl hold
        · obtain ⟨x, rfl⟩ := step_mem_exec hexec hnew
          exact Or.inr ⟨x, List.mem_cons_self⟩
      · exact Or.inr ⟨x, List.mem_cons_of_mem _ hx⟩

/-- Only an end stamp reads as one, in a program that keeps its steps to the numbers a span may use. -/
theorem event_end {ops : List (GuardOp Obj)} {objects : Obj → Option ScopedSample} {stamps : List GuardStamp}
    (h : GuardOp.execAll (fun _ => none) [] ops = some (objects, stamps)) (hsteps : ∀ x, .step x kEndStep ∉ ops)
    {s : GuardStamp} (hs : s ∈ stamps) (hend : stepOf s.event = kEndStep) : ∃ p q, s = .endSpan p q := by
  cases s with
  | endSpan p q => exact ⟨p, q, rfl⟩
  | beginSpan p q =>
      rw [GuardStamp.event, stepOf_makeEvent_masked] at hend
      cases hend
  | step p n q =>
      rw [GuardStamp.event, stepOf_makeEvent_masked] at hend
      subst hend
      rcases step_mem_execAll h hs with hnil | ⟨x, hx⟩
      · cases hnil
      · exact absurd hx (hsteps x)

end Programs

end SlickPerfmon
