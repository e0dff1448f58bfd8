import SlickPerfmon.Session.CsvAppend

/-!
# Opening a session

`start`, `shutdown`, `set_enabled` and the control block's owner, on the members of the Collector that a session is made
of and on the calling module's hot pointers. What opening a segment comes to, whether a thread can be made, and where
memory runs out, is given. A mapping is a number, and so is a session: how many were made before it.
-/

namespace SlickPerfmon

open Library

/-! ## What a start is given -/

/-- The tests of a double in `validate_config`. -/
structure DoubleTests (F : Type) where
  isFinite : F → Bool
  /-- `p < 0.0`. -/
  negative : F → Bool
  /-- `p > 100.0`. -/
  aboveHundred : F → Bool

/-- The settings that decide whether a session opens. -/
structure SessionConfig (F : Type) where
  runMode : Mode
  shmName : List UInt8
  maxNames : UInt32
  path : List UInt8
  queueCapacity : UInt32
  maxThreadRings : UInt32
  threadRingCapacity : UInt32
  csv : CsvConfig F
  createIfAbsent : Bool

/-- The environment variables, the files, and the platform's `SLICK_PERFMON_SHM_NAME_MAX`. -/
structure StartEnvironment where
  disable : Option (List UInt8)
  shm : Option (List UInt8)
  csv : Option (List UInt8)
  file : List UInt8 → List UInt8
  shmNameMax : Nat

/-- The header of a control block. -/
structure ControlHeader where
  magic : UInt32
  layoutVersion : UInt32
  nameCapacity : UInt32
  maxNames : UInt32
  ringCount : UInt32
  ringCapacity : UInt32
deriving DecidableEq, Repr

/-- The control block: no memory for it (nor, in a shared mode, for the mapping), its segment not to be opened, made by
this open, or found; then whether it got ready in time. -/
inductive ControlSegment
  | noMemory
  | invalid
  | created (mapping : Nat)
  | found (mapping : Nat) (ready : Bool) (header : ControlHeader)
deriving DecidableEq, Repr

/-- Memory for strings: it may run out at those of the settings, or at the name of the control block. -/
inductive StringMemory
  | enough
  | noSettings
  | noName
deriving DecidableEq, Repr

/-- Memory for a session: it may run out by the table of thread rings, or at the vectors that come after it. -/
inductive SessionMemory
  | enough
  | noTable
  | noCursors
deriving DecidableEq, Repr

/-- What the attempt meets. The ring's constructor gives a mapping or throws, and so may the thread's. -/
structure Opening where
  strings : StringMemory
  ring : Except (List UInt8) Nat
  control : ControlSegment
  session : SessionMemory
  thread : Except (List UInt8) Unit

/-- A call of `start`. -/
structure StartCall (F : Type) where
  env : StartEnvironment
  cfg : SessionConfig F
  opening : Opening

inductive StartResult
  | started
  | off
  | threw (what : List UInt8)
deriving DecidableEq, Repr

/-- `what()` of the exception that an allocation throws. -/
def badAlloc : List UInt8 := ascii "std::bad_alloc"

/-! ## The control block -/

namespace ControlHeader

def kMagic : UInt32 := 0x314D5053
def kLayoutVersion : UInt32 := 5
/-- `SLICK_PERFMON_NAME_CAPACITY`. -/
def kNameCapacity : UInt32 := 64

def initialise (maxNames rings ringCapacity : UInt32) : ControlHeader :=
  ⟨kMagic, kLayoutVersion, kNameCapacity, maxNames, rings, ringCapacity⟩

def validate (b : ControlHeader) (maxNames rings ringCapacity : UInt32) : Except (List UInt8) Unit :=
  if b.magic ≠ kMagic then .error (ascii "slick-perfmon: control block magic mismatch")
  else if b.layoutVersion ≠ kLayoutVersion then
    .error (ascii "slick-perfmon: control block layout version mismatch")
  else if b.nameCapacity ≠ kNameCapacity then
    .error (ascii "slick-perfmon: peer built with a different SLICK_PERFMON_NAME_CAPACITY")
  else if b.maxNames ≠ maxNames then .error (ascii "slick-perfmon: peer configured a different max_names")
  else if b.ringCount ≠ rings ∨ (rings > 0 ∧ b.ringCapacity ≠ ringCapacity) then
    .error (ascii ("slick-perfmon: peer configured a different max_thread_rings or " ++ "thread_ring_capacity"))
  else .ok ()

end ControlHeader

/-- `shm_` and `block_`; the heap block of a local session is only ever `block_`. -/
structure ControlBlockOwner where
  shm : Option Nat
  block : Option ControlHeader
deriving DecidableEq, Repr

namespace ControlBlockOwner

variable (c : ControlBlockOwner) (segment : ControlSegment) (maxNames rings ringCapacity : UInt32)

def reset : ControlBlockOwner := ⟨none, none⟩

/-- What follows an open that found the segment; `false` is returned, an error thrown. -/
def adopt (ready : Bool) (maxNames rings ringCapacity : UInt32) (b : ControlHeader) :
    ControlBlockOwner × Except (List UInt8) Bool :=
  if ready then (c, (b.validate maxNames rings ringCapacity).map fun _ => true) else (reset, .ok false)

def createShared : ControlBlockOwner × Except (List UInt8) Bool :=
  match segment with
  | .noMemory => (c, .error badAlloc)
  | .invalid => ({ c with shm := none }, .ok false)
  | .created mapping => (⟨some mapping, some (.initialise maxNames rings ringCapacity)⟩, .ok true)
  | .found mapping ready b => adopt ⟨some mapping, some b⟩ ready maxNames rings ringCapacity b

/-- `open_existing` creates nothing. -/
def attachShared : ControlBlockOwner × Except (List UInt8) Bool :=
  match segment with
  | .noMemory => (c, .error badAlloc)
  | .found mapping ready b => adopt ⟨some mapping, some b⟩ ready maxNames rings ringCapacity b
  | _ => ({ c with shm := none }, .ok false)

/-- The heap's block is as large as `max_names` makes it, which nothing bounds. -/
def createLocal : ControlBlockOwner × Except (List UInt8) Bool :=
  match segment with
  | .noMemory => (c, .error badAlloc)
  | _ => ({ c with block := some (.initialise maxNames 0 0) }, .ok true)

end ControlBlockOwner

/-! ## The environment and the settings -/

/-- `None` when instrumentation is turned off. -/
def applyEnvironment {F : Type} (env : StartEnvironment) (cfg : SessionConfig F) : Option (SessionConfig F) :=
  match (env.disable.bind List.head?) with
  | some c => if c ≠ 48 then none else some (fillIn cfg)
  | none => some (fillIn cfg)
where
  /-- Only what the caller left at its default. -/
  fillIn (cfg : SessionConfig F) : SessionConfig F :=
    let cfg :=
      match env.shm with
      | some shm => if cfg.shmName = [] then { cfg with shmName := shm, runMode := .sharedProducer } else cfg
      | none => cfg
    match env.csv with
    | some csv => if cfg.path = ascii "perfmon.csv" then { cfg with path := csv } else cfg
    | none => cfg

def kMaxThreadRings : UInt32 := 4096
def kMaxThreadRingBytes : UInt64 := (2 : UInt64) <<< 30

/-- Nothing, or the message of the `std::invalid_argument`. -/
def validateConfig {F : Type} (fmt : FloatText F) (tests : DoubleTests F) (env : StartEnvironment)
    (cfg : SessionConfig F) : Except (List UInt8) Unit :=
  let ringBytes := cfg.maxThreadRings.toUInt64 * cfg.threadRingCapacity.toUInt64 * 16
  if cfg.queueCapacity < 2 ∨ cfg.queueCapacity &&& (cfg.queueCapacity - 1) ≠ 0 then
    .error (ascii "slick-perfmon: queue_capacity must be a power of two and at least 2")
  else if cfg.maxThreadRings > 0 ∧
      (cfg.threadRingCapacity < 2 ∨ cfg.threadRingCapacity &&& (cfg.threadRingCapacity - 1) ≠ 0) then
    .error (ascii "slick-perfmon: thread_ring_capacity must be a power of two and at least 2")
  else if cfg.maxThreadRings > kMaxThreadRings then
    .error (ascii "slick-perfmon: max_thread_rings is at most " ++ decimal kMaxThreadRings.toNat)
  else if ringBytes > kMaxThreadRingBytes then
    .error (ascii "slick-perfmon: max_thread_rings x thread_ring_capacity x 16 bytes is " ++
      decimal (ringBytes >>> 20).toNat ++ ascii " MiB, and the limit is " ++
      decimal (kMaxThreadRingBytes >>> 20).toNat ++ ascii " MiB")
  else if cfg.runMode ≠ .localMode ∧ cfg.shmName = [] then
    .error (ascii "slick-perfmon: the shared modes require a shm_name")
  else if cfg.runMode ≠ .localMode ∧ cfg.shmName.length > env.shmNameMax then
    .error (ascii "slick-perfmon: shm_name is " ++ decimal cfg.shmName.length ++
      ascii " characters, and this platform allows at most " ++ decimal env.shmNameMax ++
      ascii (" (the control block is stored " ++ "under shm_name + \".meta\", which has to fit too)"))
  else if cfg.csv.percentiles.any fun p => !tests.isFinite p || tests.negative p || tests.aboveHundred p then
    .error (ascii ("slick-perfmon: every config::percentiles entry must be a finite " ++ "number in [0, 100]"))
  else validateCsvSchema fmt cfg.path cfg.runMode cfg.csv (env.file cfg.path)

/-- `validate_config` with memory for the strings. -/
def StartCall.check {F : Type} (fmt : FloatText F) (tests : DoubleTests F) (i : StartCall F) (cfg : SessionConfig F) :
    Except (List UInt8) Unit :=
  if i.opening.strings = .noSettings then .error badAlloc else validateConfig fmt tests i.env cfg

/-! ## The Collector -/

/-- What a module's hot pointer is at: nothing, a session of this Collector, or one of another. -/
inductive HotPointer
  | null
  | own (id : Nat)
  | other
deriving DecidableEq, Repr

/-- The calling module's `g_hot`. -/
structure ModuleHot where
  current : HotPointer
  live : HotPointer
deriving DecidableEq, Repr

/-- An entry of the retired list. `table` is the geometry of the heap's thread rings. -/
structure RetiredSession where
  ring : Option Nat
  shmName : List UInt8
  session : Option Nat
  table : Option (UInt32 × UInt32)
  metaShm : Option Nat
deriving DecidableEq, Repr

/-- The members of a Collector that a session is made of, and how many sessions it has made. -/
structure CollectorParts (F : Type) where
  cfg : SessionConfig F
  started : Bool
  ring : Option Nat
  control : ControlBlockOwner
  table : Option (UInt32 × UInt32)
  session : Option Nat
  retired : List RetiredSession
  hot : ModuleHot
  made : Nat

/-- What `shutdown` allocates: the name for the retired entry, the entry, and the emptied label caches. -/
inductive ShutdownMemory
  | name
  | entry
  | caches
deriving DecidableEq, Repr

namespace CollectorParts

variable {F : Type} (fmt : FloatText F) (tests : DoubleTests F) (c : CollectorParts F)

/-- A Collector that has just been constructed, with the default config. -/
def fresh (cfg : SessionConfig F) : CollectorParts F :=
  ⟨cfg, false, none, .reset, none, none, [], ⟨.null, .null⟩, 0⟩

def shutdown : CollectorParts F :=
  if c.started then
    let c := { c with hot := ⟨.null, .null⟩ }
    let c :=
      if c.ring.isSome ∨ c.session.isSome then
        let shared := c.cfg.runMode ≠ .localMode
        { c with
          ring := none
          session := none
          table := none
          retired := c.retired ++
            [⟨c.ring, if shared then c.cfg.shmName else [], c.session, c.table,
              if shared then c.control.shm else none⟩] }
      else c
    { c with control := .reset, started := false }
  else c

/-- Whether `shutdown` comes to ask for this. -/
def asksFor : ShutdownMemory → Bool
  | .name => c.started && (c.ring.isSome || c.session.isSome) && c.cfg.runMode ≠ .localMode
  | .entry => c.started && (c.ring.isSome || c.session.isSome)
  | .caches => c.started

/-- What a `shutdown` that runs out of memory there leaves. What was moved into the entry is freed with it. -/
def shutdownShort (short : ShutdownMemory) : CollectorParts F :=
  match short with
  | .name => { c with hot := ⟨.null, .null⟩, ring := none }
  | .entry =>
      { c with
        hot := ⟨.null, .null⟩
        ring := none
        session := none
        table := none
        control := if c.cfg.runMode ≠ .localMode then .reset else c.control }
  | .caches => { c.shutdown with started := true }

def releaseRetiredRing (name : List UInt8) : CollectorParts F :=
  { c with retired := c.retired.filter fun r => r.shmName ≠ name }

/-- The ring, and then the control block. -/
def openRing (o : Opening) (block : ControlBlockOwner × Except (List UInt8) Bool) :
    CollectorParts F × Except (List UInt8) Bool :=
  match o.ring with
  | .error e => (c, .error e)
  | .ok ring => ({ c with ring := some ring, control := block.1 }, block.2)

/-- `open_transport` once the retired mapping of the name is dropped. The ring's constructor is under the `try` of the
attach-only producer alone. -/
def openSegments (o : Opening) : CollectorParts F × Except (List UInt8) Bool :=
  let created := c.control.createShared o.control c.cfg.maxNames c.cfg.maxThreadRings c.cfg.threadRingCapacity
  match c.cfg.runMode with
  | .localMode => c.openRing o (c.control.createLocal o.control c.cfg.maxNames)
  | .sharedCollector => c.openRing o created
  | .sharedProducer =>
      if c.cfg.createIfAbsent then c.openRing o created
      else
        match o.ring with
        | .error _ => ({ c with ring := none }, .ok false)
        | .ok _ =>
            c.openRing o
              (c.control.attachShared o.control c.cfg.maxNames c.cfg.maxThreadRings c.cfg.threadRingCapacity)

def openTransport (o : Opening) : CollectorParts F × Except (List UInt8) Bool :=
  if o.strings = .noName then (c, .error badAlloc)
  else (if c.cfg.runMode ≠ .localMode then c.releaseRetiredRing c.cfg.shmName else c).openSegments o

/-- A local session's table may be that of a retired one; here it only has its geometry. -/
def createSession (o : Opening) : CollectorParts F × Except (List UInt8) Unit :=
  let table :=
    if c.cfg.maxThreadRings > 0 ∧ c.cfg.runMode = .localMode then
      some (c.cfg.maxThreadRings, c.cfg.threadRingCapacity)
    else c.table
  match o.session with
  | .noTable => (c, .error badAlloc)
  | .noCursors => ({ c with table := table }, .error badAlloc)
  | .enough => ({ c with table := table, session := some c.made, made := c.made + 1 }, .ok ())

/-- The collector thread, but for a producer, and then the hot pointer. -/
def launch (o : Opening) : CollectorParts F × StartResult :=
  match (if c.cfg.runMode = .sharedProducer then .ok () else o.thread) with
  | .error e => (c, .threw e)
  | .ok () =>
      let p := (c.session.map HotPointer.own).getD .null
      ({ c with hot := ⟨p, p⟩ }, .started)

/-- The rest of `start`, when the transport is `opened` or not. -/
def afterTransport (o : Opening) (opened : Except (List UInt8) Bool) : CollectorParts F × StartResult :=
  match opened with
  | .error e => (c, .threw e)
  | .ok false => (c, .off)
  | .ok true =>
      match c.createSession o with
      | (c, .error e) => (c, .threw e)
      | (c, .ok ()) => ({ c with started := true } : CollectorParts F).launch o

def openSession (o : Opening) : CollectorParts F × StartResult :=
  match c.openTransport o with
  | (c, opened) => c.afterTransport o opened

def start (i : StartCall F) : CollectorParts F × StartResult :=
  let c := { c.shutdown with cfg := i.cfg }
  match applyEnvironment i.env i.cfg with
  | none => (c, .off)
  | some cfg =>
      let c := { c with cfg := cfg }
      match i.check fmt tests cfg with
      | .error e => (c, .threw e)
      | .ok () => c.openSession i.opening

/-- `start`, where memory may run out in its `shutdown`. -/
def startShort (short : Option ShutdownMemory) (i : StartCall F) : CollectorParts F × StartResult :=
  match short.filter c.asksFor with
  | some what => (c.shutdownShort what, .threw badAlloc)
  | none => c.start fmt tests i

/-- Only `current` is the switch. -/
def setEnabled (on : Bool) : CollectorParts F :=
  if c.started then
    { c with hot := { c.hot with current := if on then (c.session.map HotPointer.own).getD .null else .null } }
  else c

/-- `attach(session())`. -/
def attachOwn : CollectorParts F :=
  let p := (c.session.map HotPointer.own).getD .null
  { c with hot := ⟨p, p⟩ }

end CollectorParts

/-- The calls on one Collector, and what other Collectors of the module leave in its hot pointers. -/
inductive PartsCall (F : Type)
  | start (i : StartCall F)
  | shutdown
  | setEnabled (on : Bool)
  | attachOwn
  | elsewhere (current live : Bool)

namespace CollectorParts

variable {F : Type} (fmt : FloatText F) (tests : DoubleTests F) (c : CollectorParts F)

def makeCall : PartsCall F → CollectorParts F
  | .start i => (c.start fmt tests i).1
  | .shutdown => c.shutdown
  | .setEnabled on => c.setEnabled on
  | .attachOwn => c.attachOwn
  | .elsewhere current live =>
      { c with hot := ⟨if current then .other else .null, if live then .other else .null⟩ }

end CollectorParts

end SlickPerfmon
