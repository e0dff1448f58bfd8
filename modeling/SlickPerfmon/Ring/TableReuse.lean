import Mathlib.Logic.Function.Basic
import SlickPerfmon.Library.TransitionSystem

/-!
# A local Collector's retired tables

`start()`, `shutdown()` and `attach(session())` on one Collector in local mode, called from any of the modules that
share it, and the stamps in between: which session each module's hot pointer names, which modules a session has
noted, and which retired session owns which table of thread rings. Sessions and tables are numbered as they are
made.
-/

namespace SlickPerfmon

open Library

def kMaxModules : Nat := 8

/-- `detail::session`, less what the hot path reads: `table` is the memory its `rings` view. -/
structure TableSession (Module : Type) where
  creator : Module
  modules : List Module
  modulesFull : Bool
  table : Option Nat
  count : Nat
  capacity : Nat
deriving DecidableEq, Repr

/-- An entry of `retired_rings_`. -/
structure RetiredRing where
  session : Nat
  table : Option Nat
deriving DecidableEq, Repr

/-- A module's `g_hot`. -/
structure HotState where
  current : Option Nat
  live : Option Nat
deriving DecidableEq, Repr

/-- `opens`: the environment, the configuration and the transport let the session start. -/
structure TableConfig where
  maxThreadRings : Nat
  threadRingCapacity : Nat
  opens : Bool
deriving DecidableEq, Repr

/-- `session` and `table` are `session_` and `table_`; `started` and `tables` count what has been made. -/
structure ReuseState (Module : Type) where
  sessions : Nat → TableSession Module
  started : Nat
  session : Option Nat
  table : Option Nat
  tables : Nat
  retired : List RetiredRing
  hot : Module → HotState

/-- One call, from module `m`. -/
inductive ReuseAction (Module : Type)
  | start (m : Module) (cfg : TableConfig)
  | shutdown (m : Module)
  | attach (m : Module)
  | detach (m : Module)
  | stamp (m : Module)
  | prepare (m : Module)
deriving DecidableEq, Repr

variable {Module : Type} [DecidableEq Module]

namespace TableSession

/-- `note_module`. -/
def noteModule (self : Module) (s : TableSession Module) : TableSession Module :=
  if self = s.creator ∨ self ∈ s.modules then s
  else if s.modules.length < kMaxModules then { s with modules := s.modules ++ [self] }
  else { s with modulesFull := true }

end TableSession

namespace ReuseState

variable (st : ReuseState Module)

/-- `modules_moved_on` of session `s`, with the retired sessions after it. -/
def modulesMovedOn (s : TableSession Module) (later : List RetiredRing) : Bool :=
  !s.modulesFull && s.modules.all fun mod => later.any fun r => decide (mod ∈ (st.sessions r.session).modules)

/-- The test of `take_retired_table` on one entry. -/
def reusable (rings capacity : Nat) (r : RetiredRing) (later : List RetiredRing) : Bool :=
  let s := st.sessions r.session
  r.table.isSome && s.count == rings && s.capacity == capacity && st.modulesMovedOn s later

/-- `take_retired_table`: the table, and the list with its entry's pointer moved from. -/
def takeRetiredTable (rings capacity : Nat) : List RetiredRing → Option (Nat × List RetiredRing)
  | [] => none
  | r :: later =>
      if st.reusable rings capacity r later then r.table.map fun t => (t, { r with table := none } :: later)
      else (takeRetiredTable rings capacity later).map fun (t, l) => (t, r :: l)

def bindModule (m : Module) (s : Option Nat) : ReuseState Module :=
  { st with hot := Function.update st.hot m ⟨s, s⟩ }

/-- `note_module` on session `k`. -/
def note (m : Module) (k : Nat) : ReuseState Module :=
  { st with sessions := Function.update st.sessions k ((st.sessions k).noteModule m) }

/-- What binding a thread of `m` to a loaded session does here. -/
def bindThread (m : Module) : Option Nat → ReuseState Module
  | none => st
  | some k => st.note m k

/-- `shutdown()`, called from module `m`. -/
def shutdown (m : Module) : ReuseState Module :=
  match st.session with
  | none => st
  | some k =>
      { st.bindModule m none with
        retired := st.retired ++ [⟨k, st.table⟩]
        session := none
        table := none }

/-- The table `create_session()` lays the session's rings over. -/
def acquireTable (cfg : TableConfig) : ReuseState Module :=
  if cfg.maxThreadRings > 0 then
    match st.takeRetiredTable cfg.maxThreadRings cfg.threadRingCapacity st.retired with
    | some (t, retired) => { st with table := some t, retired := retired }
    | none => { st with table := some st.tables, tables := st.tables + 1 }
  else st

def createSession (m : Module) (cfg : TableConfig) : ReuseState Module :=
  let st := st.acquireTable cfg
  { st with
    sessions :=
      Function.update st.sessions st.started
        ⟨m, [], false, st.table, cfg.maxThreadRings, cfg.threadRingCapacity⟩
    session := some st.started
    started := st.started + 1 }

/-- `start()`, called from module `m`. -/
def start (m : Module) (cfg : TableConfig) : ReuseState Module :=
  let st := st.shutdown m
  if cfg.opens then
    let st := st.createSession m cfg
    let st := st.bindModule m st.session
    st.bindThread m (st.hot m).live
  else st

/-- `attach(session())`. -/
def attach (m : Module) : ReuseState Module :=
  (st.bindThread m st.session).bindModule m st.session

def step : ReuseAction Module → ReuseState Module → Option (ReuseState Module)
  | .start m cfg, st => some (st.start m cfg)
  | .shutdown m, st => some (st.shutdown m)
  | .attach m, st => some (st.attach m)
  | .detach m, st => some (st.bindModule m none)
  | .stamp m, st => some (st.bindThread m (st.hot m).current)
  | .prepare m, st => some (st.bindThread m (st.hot m).live)

end ReuseState

/-- A Collector that has not been started, and modules that are not attached. -/
structure ReuseInit (st : ReuseState Module) : Prop where
  started : st.started = 0
  session : st.session = none
  table : st.table = none
  tables : st.tables = 0
  retired : st.retired = []
  hot : ∀ m, st.hot m = ⟨none, none⟩

/-- Every history of calls. -/
def reuseSystem (Module : Type) [DecidableEq Module] : System (ReuseState Module) (ReuseAction Module) where
  Init := ReuseInit
  step := ReuseState.step

end SlickPerfmon
