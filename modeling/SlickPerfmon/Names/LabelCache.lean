import SlickPerfmon.Names.NameTable
import SlickPerfmon.Report.Csv

/-!
# The label caches

`refresh_name_cache`, `resolve_point_name` and `resolve_stage_name`: the collector's flushes resolve labels through two
bounded caches, while publishers step on the name table at any point between. A lookup takes the single loads it takes
in `lookup`; what the collector does to its own caches goes with the load or the lookup before it.
-/

namespace SlickPerfmon

open Library

/-- A label that a row asks for. -/
inductive LabelRequest
  | point (p : UInt32)
  | stage (p : UInt32) (fromStep toStep : UInt8)
deriving DecidableEq, Repr

namespace LabelRequest

/-- The stage labels that are not looked up. -/
def fixed : LabelRequest → Option (List UInt8)
  | .point _ => none
  | .stage _ fromStep toStep =>
      if fromStep = kBeginStep ∧ toStep = kBeginStep then some (ascii "total")
      else if isValueStage fromStep toStep then some (ascii kValueStageName)
      else none

/-- The (point, step) whose name is looked up: a transition is labelled by where it ends. -/
def named : LabelRequest → UInt32 × UInt8
  | .point p => (p, kBeginStep)
  | .stage p _ toStep => (p, toStep)

/-- The label of an unnamed row. -/
def generated : LabelRequest → List UInt8
  | .point p => ascii "point_" ++ decimal p.toNat
  | .stage _ fromStep toStep => ascii "step_" ++ decimal fromStep.toNat ++ ascii "->" ++ decimal toStep.toNat

/-- The label made of what `lookup` returned. -/
def labelOf (req : LabelRequest) (nm : List UInt8) : List UInt8 :=
  match req with
  | .point _ => if nm = [] then req.generated else nm
  | .stage .. => if nm = [] ∨ nm = ascii kValueStageName then req.generated else nm

end LabelRequest

/-- Where the collector stands: between flushes, before the load of the generation, before the next label, or in a
lookup for one. -/
inductive FlushPc
  | idle
  | refresh (todo : List LabelRequest)
  | resolve (todo : List LabelRequest)
  | lookup (req : LabelRequest) (todo : List LabelRequest)
deriving DecidableEq, Repr

section Model

variable {nameCapacity : Nat} {Caller : Type}

/-- `resolved` are the labels of the flush that runs or ran last. -/
structure LabelState (Caller : Type) where
  names : NameState Caller Unit
  pointNames : OpenMap (List UInt8)
  stageNames : OpenMap (List UInt8)
  cachedGeneration : Nat
  pc : FlushPc
  resolved : List (LabelRequest × List UInt8)

/-- A publisher's step, a session that starts, a flush that begins, or the collector's next step. -/
inductive LabelAction (Caller : Type)
  | publish (p : Caller)
  | start
  | flush (todo : List LabelRequest)
  | collect

namespace LabelState

variable [DecidableEq Caller] (maxNames : Nat) (maxStages : UInt32)

def hit (s : LabelState Caller) : LabelRequest → Option (List UInt8)
  | .point p => s.pointNames.find p.toUInt64
  | .stage p fromStep toStep => s.stageNames.find (stageKey p fromStep toStep)

/-- `insert`, which does nothing when the cache is full. -/
def keep (s : LabelState Caller) (req : LabelRequest) (label : List UInt8) : LabelState Caller :=
  match req with
  | .point p => { s with pointNames := (s.pointNames.insert p.toUInt64 label).1 }
  | .stage p fromStep toStep =>
      { s with stageNames := (s.stageNames.insert (stageKey p fromStep toStep) label).1 }

/-- The row gets its label, and the flush goes on. -/
def give (s : LabelState Caller) (req : LabelRequest) (label : List UInt8) (todo : List LabelRequest) :
    LabelState Caller :=
  { s with resolved := s.resolved ++ [(req, label)], pc := .resolve todo }

def setNames (s : LabelState Caller) (names : NameState Caller Unit) : LabelState Caller := { s with names := names }

/-- A lookup returned: its label is made, kept and given. -/
def looked (s : LabelState Caller) (req : LabelRequest) (nm : List UInt8) (todo : List LabelRequest) :
    LabelState Caller :=
  ((s.setNames { s.names with lookups := fun _ => .idle }).keep req (req.labelOf nm)).give req (req.labelOf nm) todo

/-- The caches of a session that starts: `run` resets them and loads the generation. -/
def started (s : LabelState Caller) : LabelState Caller :=
  { s with
    pointNames := OpenMap.reset maxStages
    stageNames := OpenMap.reset maxStages
    cachedGeneration := s.names.generation }

def refreshNameCache (s : LabelState Caller) : LabelState Caller :=
  if s.names.generation = s.cachedGeneration then s
  else
    { s with
      pointNames := s.pointNames.clear
      stageNames := s.stageNames.clear
      cachedGeneration := s.names.generation }

/-- The collector's next step. -/
def collectStep (s : LabelState Caller) : Option (LabelState Caller) :=
  match s.pc with
  | .idle => none
  | .refresh todo => some { s.refreshNameCache with pc := .resolve todo }
  | .resolve [] => some { s with pc := .idle }
  | .resolve (req :: todo) =>
      match req.fixed with
      | some label => some (s.give req label todo)
      | none =>
          match s.hit req with
          | some label => some (s.give req label todo)
          | none => some { s with pc := .lookup req todo }
  | .lookup req todo =>
      match s.names.lookups () with
      | .done nm => some (s.looked req nm todo)
      | _ => (s.names.lookupStep maxNames (nameKey req.named.1 req.named.2 + 1) ()).map s.setNames

end LabelState

/-- Every interleaving of the calls `publications` with a collector that flushes any rows, any number of times. -/
def labelSystem [DecidableEq Caller] (maxNames : Nat) (maxStages : UInt32)
    (publications : Caller → Publication nameCapacity) : System (LabelState Caller) (LabelAction Caller) where
  Init s := (∀ i, (s.names.slots i).keyPlusOne = 0 ∧ (s.names.slots i).claimant = none) ∧
    (∀ p, s.names.publishers p = .idle) ∧ s.names.lookups () = .idle ∧ s.pc = .idle ∧ s.resolved = [] ∧
    s.pointNames = OpenMap.reset maxStages ∧ s.stageNames = OpenMap.reset maxStages ∧
    s.cachedGeneration = s.names.generation
  step a s :=
    match a with
    | .publish p => (s.names.publishStep maxNames (publications p) p).map s.setNames
    | .start => if s.pc = .idle then some (s.started maxStages) else none
    | .flush todo => if s.pc = .idle then some { s with pc := .refresh todo, resolved := [] } else none
    | .collect => s.collectStep maxNames

end Model

end SlickPerfmon
