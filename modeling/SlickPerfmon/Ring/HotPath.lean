import SlickPerfmon.Ring.RingTable

/-!
# The hot path

`stamp`, `value`, `publish` and the collector's `ring_read` with what they carry, on a table under its claim protocol.
The loads and stores are single steps: a thread's are those of `ring_writer` on the ring it is bound to, the collector's
those of `ring_read`. A publication into the shared ring is one step.
-/

namespace SlickPerfmon

open Library

/-! ## Calls -/

def kNoSeq : UInt32 := 0

/-- A call that publishes one sample. -/
inductive HotCall
  | stamp (isBegin : Bool) (p e : UInt32)
  | value (p : UInt32) (v : UInt64)
deriving DecidableEq, Repr

namespace HotCall

def beginSpan (p seq : UInt32) : HotCall := .stamp true p (makeEvent kBeginStep seq)
def stepSpan (p : UInt32) (n : UInt8) (seq : UInt32) : HotCall := .stamp false p (makeEvent n seq)
def endSpan (p seq : UInt32) : HotCall := .stamp false p (makeEvent kEndStep seq)

def isBegin : HotCall → Bool
  | .stamp b _ _ => b
  | .value _ _ => false

def point : HotCall → UInt32
  | .stamp _ p _ | .value p _ => p

def event : HotCall → UInt32
  | .stamp _ _ e => e
  | .value _ _ => makeEvent kValueStep kNoSeq

/-- A value is there from the start; a stamp has to read the counter. -/
def payload : HotCall → Option UInt64
  | .stamp _ _ _ => none
  | .value _ v => some v

end HotCall

/-- A call that has found a session, with what it publishes once that is known. -/
structure Calling where
  call : HotCall
  payload : Option UInt64
deriving DecidableEq, Repr

def Calling.sample (c : Calling) : Option Sample := c.payload.map fun v => ⟨v, c.call.point, c.call.event⟩

/-- A publication: into a thread's ring, or into the shared one. -/
structure HotRecord (Thread : Type) where
  thread : Thread
  ring : Option Nat
  call : HotCall
  sample : Sample
deriving DecidableEq, Repr

/-! ## The state -/

/-- `copying` is the local variables of the collector's `ring_read`. The last six only record: what each ring had been
given before, the publications, the calls that found a session, and of each ring where the collector began, what it took
and what it counted lost. -/
structure PathState (Thread Session Module Process : Type) where
  table : TableState Thread Session Module Process
  slots : Nat → Nat → Sample
  calls : Thread → Option Calling
  writing : Thread → WriterPc
  copying : Option Copy
  earlier : Nat → List Sample
  history : List (HotRecord Thread)
  accepted : Thread → List HotCall
  initial : Nat → Nat
  taken : Nat → List (Nat × Sample)
  lost : Nat → Nat

inductive PathAction (Thread Session Module Process : Type)
  /-- What goes on around the hot path: processes, sessions, `attach`, `prepare_thread`, exits, and what the collector
  does beside reading. -/
  | table (a : TableAction Thread Session Module Process)
  | stamp (t : Thread) (c : HotCall)
  /-- The thread reads its counter. -/
  | readTsc (t : Thread) (now : UInt64)
  | go (t : Thread)
  | read (r maxN : Nat)
  | load
  | consume (k : Nat)

def ThreadPc.publishes {Session : Type} : ThreadPc Session → Bool
  | .publish _ => true
  | _ => false

/-- What the hot path itself does is not under `PathAction.table`. -/
def TableAction.aside {Thread Session Module Process : Type} : TableAction Thread Session Module Process → Bool
  | .stamp _ | .go _ | .read _ _ | .consume _ => false
  | _ => true

namespace PathState

variable {Thread Session Module Process : Type} (d : Deployment Thread Session Module Process) (count mask : Nat)
  (self : UInt32) (st : PathState Thread Session Module Process)

/-- Everything ever published into ring `r`. -/
def published (r : Nat) : List Sample :=
  st.earlier r ++ (st.history.filter fun x => x.ring = some r).map HotRecord.sample

/-- Where the collector stands in ring `r`. -/
def reader (r : Nat) : ReaderPc :=
  match st.table.collector, st.copying with
  | .read r' _ _, some c => if r' = r then .copying c else .idle
  | _, _ => .idle

/-- Ring `r` as its writer and its reader have it, with the writer at `w`. -/
def ring (r : Nat) (w : WriterPc) : RingState where
  slots := st.slots r
  head := st.table.head r
  next := st.table.head r
  writer := w
  reader := st.reader r
  cursor := st.table.cursor r
  lost := st.lost r
  published := st.published r
  initial := st.initial r
  consumed := (st.taken r).length
  callCursor := st.table.cursor r
  callLost := st.lost r

/-- The call under way may read the counter: at once, or for a begin once the thread is bound. -/
def MayRead (x : ThreadState Session) (c : Calling) : Prop :=
  c.payload = none ∧ (c.call.isBegin = true → x.pc.publishes = true)

instance (x : ThreadState Session) (c : Calling) : Decidable (MayRead x c) := inferInstanceAs (Decidable (_ ∧ _))

variable [DecidableEq Thread] [DecidableEq Session] [DecidableEq Module] [DecidableEq Process]

/-- The load of the hot pointer by `stamp` and `value`. -/
def stamp (t : Thread) (c : HotCall) : Option (PathState Thread Session Module Process) :=
  (st.table.enter d st.table.current true t).map fun table =>
    match st.table.current (d.moduleOf t) with
    | some _ =>
        { st with
          table := table
          calls := Function.update st.calls t (some ⟨c, c.payload⟩)
          accepted := Function.update st.accepted t (st.accepted t ++ [c]) }
    | none => { st with table := table }

def readTsc (t : Thread) (now : UInt64) : Option (PathState Thread Session Module Process) :=
  match st.calls t with
  | some c =>
      if st.table.Alive d (d.threadHome t) ∧ MayRead (st.table.threads t) c then
        some { st with calls := Function.update st.calls t (some { c with payload := some now }) }
      else none
  | none => none

/-- The call is over: `x` is published. -/
def record (t : Thread) (ring : Option Nat) (c : HotCall) (x : Sample)
    (table : TableState Thread Session Module Process) : PathState Thread Session Module Process :=
  { st with
    table := table
    calls := Function.update st.calls t none
    writing := Function.update st.writing t .idle
    history := st.history ++ [⟨t, ring, c, x⟩] }

/-- The next access of `ring_writer::publish`: a store into the slot, or into the head. -/
def publish (t : Thread) (r : Nat) (c : HotCall) (x : Sample) : Option (PathState Thread Session Module Process) :=
  match st.writing t with
  | .idle => some { st with writing := Function.update st.writing t (.timestamp x) }
  | .head x => (st.table.go d count t).map (st.record t (some r) c x)
  | w =>
      (RingState.storeNext mask { st.ring r w with next := (st.table.threads t).next }).map fun q =>
        { st with
          slots := Function.update st.slots r q.slots
          writing := Function.update st.writing t q.writer }

/-- The next access of a thread. A stamp that is no begin has read its counter before it binds; a session retires a
ring while none of its threads is stamping into it. -/
def go (t : Thread) : Option (PathState Thread Session Module Process) :=
  match (st.table.threads t).pc, st.calls t with
  | .publish s, some c =>
      match c.sample, (st.table.threads t).ring with
      | some x, some r =>
          if st.table.Alive d (d.threadHome t) ∧ st.table.Serves s r then st.publish d count mask t r c.call x
          else none
      | some x, none => (st.table.go d count t).map (st.record t none c.call x)
      | none, _ => none
  | .publish _, none => none
  | _, c =>
      if c.any fun c => !c.call.isBegin && c.payload.isNone then none
      else (st.table.go d count t).map fun table => { st with table := table }

omit [DecidableEq Thread] [DecidableEq Session] [DecidableEq Module] [DecidableEq Process] in
/-- The first head load of `ring_read`. -/
def read (r maxN : Nat) : Option (PathState Thread Session Module Process) :=
  (st.table.readHead r maxN).map fun table =>
    match table.collector with
    | .read _ h _ =>
        let start := readStart h mask (st.table.cursor r)
        { st with table := table, copying := some ⟨h, maxN, start, readStop h start maxN, start, [], .none⟩ }
    | _ => { st with table := table }

omit [DecidableEq Thread] [DecidableEq Session] [DecidableEq Module] [DecidableEq Process] in
/-- The next load of a slot's field. -/
def load : Option (PathState Thread Session Module Process) :=
  match st.table.collector with
  | .read r _ _ =>
      ((st.ring r .idle).loadNext mask).bind fun q =>
        match q.reader with
        | .copying c => some { st with copying := some c }
        | _ => none
  | _ => none

omit [DecidableEq Thread] [DecidableEq Session] [DecidableEq Module] [DecidableEq Process] in
/-- The second head load of `ring_read`, and `k` samples of the batch consumed. -/
def consume (k : Nat) : Option (PathState Thread Session Module Process) :=
  match st.table.collector, st.copying with
  | .read r _ _, some c =>
      if c.i < c.stop then none
      else
        (st.table.consume mask k).map fun table =>
          let first := readFirst (firstIntact (st.table.head r) mask) c.start c.stop
          let batch := (c.scratch.drop (first - c.start)).take k
          { st with
            table := table
            copying := none
            taken := Function.update st.taken r (st.taken r ++ (List.range' first k).zip batch)
            lost := Function.update st.lost r (st.lost r + (first - st.table.cursor r)) }
  | _, _ => none

/-- A step around the hot path; where a cursor is anchored, the collector begins. -/
def around (a : TableAction Thread Session Module Process) : Option (PathState Thread Session Module Process) :=
  if a.aside then
    (TableState.step d count mask self a st.table).map fun table =>
      match a, st.table.collector with
      | .work, .anchor i =>
          if i < count then
            { st with
              table := table
              initial := Function.update st.initial i (st.table.head i)
              taken := Function.update st.taken i []
              lost := Function.update st.lost i 0 }
          else { st with table := table }
      | _, _ => { st with table := table }
  else none

def step : PathAction Thread Session Module Process → PathState Thread Session Module Process →
    Option (PathState Thread Session Module Process)
  | .table a, st => st.around d count mask self a
  | .stamp t c, st => st.stamp d t c
  | .readTsc t now, st => st.readTsc d t now
  | .go t, st => st.go d count mask t
  | .read r maxN, st => st.read mask r maxN
  | .load, st => st.load mask
  | .consume k, st => st.consume mask k

end PathState

/-- A table laid out by `create` or left by earlier owners, with what its rings still hold, and a collector about to
anchor its cursors. -/
structure PathInit {Thread Session Module Process : Type} (mask : Nat) (st : PathState Thread Session Module Process) :
    Prop where
  table : TableInit st.table
  length : ∀ r, (st.earlier r).length = st.table.head r
  slots : ∀ r i x, (st.earlier r)[i]? = some x → st.table.head r ≤ i + mask → st.slots r (i &&& mask) = x
  calls : ∀ t, st.calls t = none
  writing : ∀ t, st.writing t = .idle
  copying : st.copying = none
  history : st.history = []
  accepted : ∀ t, st.accepted t = []
  initial : ∀ r, st.initial r = st.table.cursor r
  taken : ∀ r, st.taken r = []
  lost : ∀ r, st.lost r = 0

/-- Every interleaving of the hot paths of any threads with the claim protocol and one collector. -/
def pathSystem {Thread Session Module Process : Type} [DecidableEq Thread] [DecidableEq Session] [DecidableEq Module]
    [DecidableEq Process] (d : Deployment Thread Session Module Process) (count mask : Nat) (self : UInt32) :
    System (PathState Thread Session Module Process) (PathAction Thread Session Module Process) where
  Init := PathInit mask
  step := PathState.step d count mask self

end SlickPerfmon
