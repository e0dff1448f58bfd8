import SlickPerfmon.Ring.ThreadRing

/-!
# `detail::ring_table`: the claim protocol

The claim words and heads of one table, and everyone who touches them: threads that bind, publish and exit,
sessions that start and shut down, processes that die, and the collector that reads, releases and reclaims. Each
action is one atomic access; what a thread does to its own variables goes with the access before it.
-/

namespace SlickPerfmon

open Library

/-! ## Claim words -/

def kRingFree : UInt64 := 0
def kRingActive : UInt64 := 1
def kRingRetired : UInt64 := 2

/-- A claim word: the pid, 24 bits of the session's tag, and the state in the low byte. -/
def ringOwner (pid tag : UInt32) (state : UInt64) : UInt64 :=
  (pid.toUInt64 <<< 32) ||| ((tag &&& 0xFFFFFF).toUInt64 <<< 8) ||| state

def ringState (owner : UInt64) : UInt64 := owner &&& 0xFF

def ringPid (owner : UInt64) : UInt32 := (owner >>> 32).toUInt32

/-- The word `retire` puts in place of `owner`. -/
def retiredWord (owner : UInt64) : UInt64 := (owner &&& ~~~(0xFF : UInt64)) ||| kRingRetired

theorem ringOwner_toNat (pid tag : UInt32) {state : UInt64} (h : state.toNat < 256) :
    (ringOwner pid tag state).toNat = pid.toNat * 2 ^ 32 + (tag.toNat % 2 ^ 24) * 2 ^ 8 + state.toNat := by
  have hp := pid.toNat_lt
  have h1 : (pid.toUInt64 <<< 32).toNat = pid.toNat * 2 ^ 32 := by
    simp [UInt64.toNat_shiftLeft, Nat.shiftLeft_eq]
    omega
  have h0 : (tag &&& 0xFFFFFF).toUInt64.toNat = tag.toNat % 2 ^ 24 := by
    simp
    exact Nat.and_two_pow_sub_one_eq_mod tag.toNat 24
  have h2 : ((tag &&& 0xFFFFFF).toUInt64 <<< 8).toNat = (tag.toNat % 2 ^ 24) * 2 ^ 8 := by
    rw [UInt64.toNat_shiftLeft, h0]
    simp [Nat.shiftLeft_eq]
    omega
  have h3 : ((tag &&& 0xFFFFFF).toUInt64 <<< 8 ||| state).toNat = (tag.toNat % 2 ^ 24) * 2 ^ 8 + state.toNat := by
    rw [UInt64.toNat_or, h2, ← Nat.shiftLeft_eq, or_eq_add h, Nat.shiftLeft_eq]
  rw [ringOwner, UInt64.or_assoc, UInt64.toNat_or, h1, h3, ← Nat.shiftLeft_eq, or_eq_add (by omega)]
  omega

theorem ringState_ringOwner (pid tag : UInt32) {state : UInt64} (h : state.toNat < 256) :
    ringState (ringOwner pid tag state) = state := by
  apply UInt64.toNat_inj.mp
  rw [ringState, UInt64.toNat_and, ringOwner_toNat pid tag h]
  show (_ &&& 2 ^ 8 - 1) = _
  rw [Nat.and_two_pow_sub_one_eq_mod]
  omega

theorem ringPid_ringOwner (pid tag : UInt32) {state : UInt64} (h : state.toNat < 256) :
    ringPid (ringOwner pid tag state) = pid := by
  apply UInt32.toNat_inj.mp
  have hp := pid.toNat_lt
  have : (ringOwner pid tag state >>> 32).toNat = pid.toNat := by
    rw [UInt64.toNat_shiftRight, ringOwner_toNat pid tag h]
    show _ >>> 32 = _
    rw [Nat.shiftRight_eq_div_pow]
    omega
  rw [ringPid, UInt64.toNat_toUInt32, this]
  omega

theorem and_not_low (owner : UInt64) : owner &&& ~~~(0xFF : UInt64) = owner >>> 8 <<< 8 := by
  apply UInt64.eq_of_toBitVec_eq
  apply BitVec.eq_of_getLsbD_eq
  intro i hi
  have hlow : (255#64).getLsbD i = decide (i < 8) := by
    show Nat.testBit (2 ^ 8 - 1) i = _
    rw [Nat.testBit_two_pow_sub_one]
  simp only [UInt64.toBitVec_and, UInt64.toBitVec_not, UInt64.toBitVec_shiftLeft, UInt64.toBitVec_shiftRight]
  show (owner.toBitVec &&& ~~~255#64).getLsbD i = (owner.toBitVec >>> (8#64 % 64) <<< (8#64 % 64)).getLsbD i
  simp only [BitVec.getLsbD_and, BitVec.getLsbD_not, hlow]
  by_cases h8 : i < 8
  · simp [h8, hi]
  · simp [h8, hi, show 8 + (i - 8) = i by omega]

theorem retiredWord_ringOwner (pid tag : UInt32) :
    retiredWord (ringOwner pid tag kRingActive) = ringOwner pid tag kRingRetired := by
  apply UInt64.toNat_inj.mp
  have hp := pid.toNat_lt
  have h : (ringOwner pid tag kRingActive >>> 8 <<< 8).toNat = (pid.toNat * 2 ^ 24 + tag.toNat % 2 ^ 24) <<< 8 := by
    rw [UInt64.toNat_shiftLeft, UInt64.toNat_shiftRight, ringOwner_toNat pid tag (by decide)]
    simp only [Nat.shiftLeft_eq, Nat.shiftRight_eq_div_pow, show kRingActive.toNat = 1 from rfl,
      show (8 : UInt64).toNat % 64 = 8 from rfl]
    omega
  rw [retiredWord, and_not_low, UInt64.toNat_or, h, or_eq_add (by decide), ringOwner_toNat pid tag (by decide)]
  omega

/-! ## The parties -/

/-- Who belongs to whom, and the numbers that tell sessions apart. A thread is a thread of one module: its
`thread_state` and its exit hook are per module. Tags on the table are distinct and session ids unique. -/
structure Deployment (Thread Session Module Process : Type) where
  moduleOf : Thread → Module
  creator : Session → Module
  processOf : Module → Process
  pidOf : Process → UInt32
  id : Session → UInt64
  tag : Session → UInt32
  id_ne_zero : ∀ s, id s ≠ 0
  id_inj : ∀ s s', id s = id s' → s = s'
  tag_inj : ∀ s s', tag s &&& 0xFFFFFF = tag s' &&& 0xFFFFFF → s = s'

/-- How far `start()` and then `shutdown()` of a session have come. -/
inductive Phase
  | unborn
  | opening
  | running
  | detaching
  | retiring (i : Nat)
  | ended
deriving DecidableEq, Repr

/-- `shutdown()` has not come to retire ring `r`. -/
def Phase.serves (r : Nat) : Phase → Bool
  | .opening | .running | .detaching => true
  | .retiring i => i ≤ r
  | .unborn | .ended => false

theorem Phase.serves_retiring {i r : Nat} : (Phase.retiring i).serves r = true ↔ i ≤ r := decide_eq_true_iff

/-- The access a thread does next: `load` and `claim` are the two of `claim()` on ring `i`, `attach` loads the
head of the claimed ring, `publish` stores the head, `retire` is the exit hook's. `stamps` tells a stamp from
`prepare_thread()`. -/
inductive ThreadPc (Session : Type)
  | idle
  | load (s : Session) (i : Nat) (stamps : Bool)
  | claim (s : Session) (i : Nat) (stamps : Bool)
  | attach (s : Session) (i : Nat) (stamps : Bool)
  | publish (s : Session)
  | retire (s : Session)
  | exited
deriving DecidableEq, Repr

/-- `thread_state` with the ring it writes, and `thread_exit_hook`. No ring: the shared one. -/
structure ThreadState (Session : Type) where
  sessionId : UInt64
  ring : Option Nat
  next : Nat
  hookSession : UInt64
  hookRing : Nat
  pc : ThreadPc Session
deriving DecidableEq, Repr

/-- The access the collector does next: `anchor` is `create_session`'s loop, `read` stands between the two head
loads of `ring_read`, `load`, `drained` and `free` are `release_retired_rings`, the last three
`reclaim_dead_rings`. -/
inductive CollectorPc
  | anchor (i : Nat)
  | idle
  | read (r h maxN : Nat)
  | load (i : Nat)
  | drained (i : Nat) (seen : UInt64)
  | free (i : Nat) (seen : UInt64)
  | scan (i : Nat)
  | alive (i : Nat) (owner : UInt64)
  | retire (i : Nat) (owner : UInt64)
deriving DecidableEq, Repr

/-- `occupant` is the operating system's process table; a pid may be given again. -/
structure TableState (Thread Session Module Process : Type) where
  head : Nat → Nat
  owner : Nat → UInt64
  live : Module → Option Session
  current : Module → Option Session
  phase : Session → Phase
  threads : Thread → ThreadState Session
  born : Process → Bool
  occupant : UInt32 → Option Process
  cursor : Nat → Nat
  lost : Nat
  collector : CollectorPc

inductive TableAction (Thread Session Module Process : Type)
  | spawn (p : Process)
  | die (p : Process)
  | start (s : Session)
  | shutdown (s : Session)
  | attachLive (m : Module) (s : Option Session)
  | attachCurrent (m : Module) (s : Option Session)
  | stamp (t : Thread)
  | prepare (t : Thread)
  | exit (t : Thread)
  | go (t : Thread)
  | read (r maxN : Nat)
  | consume (k : Nat)
  | release
  | reclaim
  | work
deriving DecidableEq, Repr

variable {Thread Session Module Process : Type} [DecidableEq Thread] [DecidableEq Session]
  [DecidableEq Module] [DecidableEq Process]

namespace Deployment

variable (d : Deployment Thread Session Module Process)

/-- `session::owner`: the active word a session claims rings with. -/
def owner (s : Session) : UInt64 := ringOwner (d.pidOf (d.processOf (d.creator s))) (d.tag s) kRingActive

def home (s : Session) : Process := d.processOf (d.creator s)

def threadHome (t : Thread) : Process := d.processOf (d.moduleOf t)

end Deployment

namespace TableState

variable (d : Deployment Thread Session Module Process) (count mask : Nat) (self : UInt32)
  (st : TableState Thread Session Module Process)

def Alive (p : Process) : Prop := st.occupant (d.pidOf p) = some p

instance (p : Process) : Decidable (st.Alive d p) := inferInstanceAs (Decidable (_ = _))

/-- Ring `r` of a session, from the first publication of the session until `shutdown()` comes to retire the ring. -/
def Serves (s : Session) (r : Nat) : Prop := (st.phase s).serves r = true

instance (s : Session) (r : Nat) : Decidable (st.Serves s r) := inferInstanceAs (Decidable (_ = _))

omit [DecidableEq Thread] [DecidableEq Session] [DecidableEq Module] [DecidableEq Process] in
theorem Serves.of_phase {st : TableState Thread Session Module Process} {s : Session} {r : Nat} {p : Phase}
    (hp : st.phase s = p) (h : p.serves r = true) : st.Serves s r := by
  rw [Serves, hp]
  exact h

def setThread (t : Thread) (x : ThreadState Session) : TableState Thread Session Module Process :=
  { st with threads := Function.update st.threads t x }

def setOwner (i : Nat) (w : UInt64) : TableState Thread Session Module Process :=
  { st with owner := Function.update st.owner i w }

/-- `ring_table::retire`: the compare-and-swap, which does nothing to a ring that `owner` does not hold. -/
def retire (i : Nat) (owner : UInt64) : TableState Thread Session Module Process :=
  if st.owner i = owner then st.setOwner i (retiredWord owner) else st

/-! ## Processes and sessions -/

def spawn (p : Process) : Option (TableState Thread Session Module Process) :=
  if st.born p = false ∧ st.occupant (d.pidOf p) = none then
    some
      { st with
        born := Function.update st.born p true
        occupant := Function.update st.occupant (d.pidOf p) (some p) }
  else none

def die (p : Process) : Option (TableState Thread Session Module Process) :=
  if st.Alive d p then some { st with occupant := Function.update st.occupant (d.pidOf p) none } else none

/-- The stores of `bind_module` at the end of `start()`. -/
def start (s : Session) : Option (TableState Thread Session Module Process) :=
  if st.Alive d (d.home s) then
    match st.phase s with
    | .unborn =>
        some
          { st with
            phase := Function.update st.phase s .opening
            live := Function.update st.live (d.creator s) (some s) }
    | .opening =>
        some
          { st with
            phase := Function.update st.phase s .running
            current := Function.update st.current (d.creator s) (some s) }
    | _ => none
  else none

/-- `shutdown()`: the two stores of `bind_module(nullptr)`, then the loop that retires the session's rings. -/
def shutdown (s : Session) : Option (TableState Thread Session Module Process) :=
  if st.Alive d (d.home s) then
    match st.phase s with
    | .running =>
        some
          { st with
            phase := Function.update st.phase s .detaching
            live := Function.update st.live (d.creator s) none }
    | .detaching =>
        some
          { st with
            phase := Function.update st.phase s (.retiring 0)
            current := Function.update st.current (d.creator s) none }
    | .retiring i =>
        if i < count then
          some { st.retire i (d.owner s) with phase := Function.update st.phase s (.retiring (i + 1)) }
        else some { st with phase := Function.update st.phase s .ended }
    | _ => none
  else none

/-- What a module may attach to: a session of its own process that has been started. -/
def MayAttach (m : Module) : Option Session → Prop
  | none => st.Alive d (d.processOf m)
  | some s => st.Alive d (d.processOf m) ∧ st.phase s ≠ .unborn ∧ d.home s = d.processOf m

instance (m : Module) (s : Option Session) : Decidable (st.MayAttach d m s) := by
  cases s <;> unfold MayAttach <;> infer_instance

def attachLive (m : Module) (s : Option Session) : Option (TableState Thread Session Module Process) :=
  if st.MayAttach d m s then some { st with live := Function.update st.live m s } else none

def attachCurrent (m : Module) (s : Option Session) : Option (TableState Thread Session Module Process) :=
  if st.MayAttach d m s then some { st with current := Function.update st.current m s } else none

/-! ## Threads -/

/-- What a bound thread goes on with. -/
def boundPc (s : Session) (stamps : Bool) : ThreadPc Session := if stamps then .publish s else .idle

/-- `bound_writer` up to the first access of `claim()`. -/
def boundWriter (x : ThreadState Session) (s : Session) (stamps : Bool) : ThreadState Session :=
  if x.sessionId ≠ d.id s then { x with sessionId := d.id s, ring := none, pc := .load s 0 stamps }
  else { x with pc := boundPc s stamps }

/-- The load of the hot pointer: `current` for a stamp, `live` for `prepare_thread()`. -/
def enter (hot : Module → Option Session) (stamps : Bool) (t : Thread) :
    Option (TableState Thread Session Module Process) :=
  let x := st.threads t
  if st.Alive d (d.threadHome t) ∧ x.pc = .idle then
    match hot (d.moduleOf t) with
    | some s => some (st.setThread t (boundWriter d x s stamps))
    | none => some st
  else none

/-- The load of the exit hook. -/
def exit (t : Thread) : Option (TableState Thread Session Module Process) :=
  let x := st.threads t
  if st.Alive d (d.threadHome t) ∧ x.pc = .idle then
    match st.live (d.moduleOf t) with
    | some s =>
        some
          (st.setThread t
            { x with pc := if x.hookSession ≠ 0 ∧ d.id s = x.hookSession then .retire s else .exited })
    | none => some (st.setThread t { x with pc := .exited })
  else none

/-- The next access of a thread. The guard on the head store says that no thread is stamping into a ring when
`shutdown()` comes to retire it, and that none of the session stamps into it afterwards. -/
def goPc (t : Thread) (x : ThreadState Session) : Option (TableState Thread Session Module Process) :=
  match x.pc with
  | .load s i stamps =>
      if i < count then
        some
          (st.setThread t
            { x with pc := if st.owner i = kRingFree then .claim s i stamps else .load s (i + 1) stamps })
      else some (st.setThread t { x with pc := boundPc s stamps })
  | .claim s i stamps =>
      if st.owner i = kRingFree then
        some
          ((st.setOwner i (d.owner s)).setThread t
            { x with hookSession := d.id s, hookRing := i, pc := .attach s i stamps })
      else some (st.setThread t { x with pc := .load s (i + 1) stamps })
  | .attach s i stamps =>
      some (st.setThread t { x with ring := some i, next := st.head i, pc := boundPc s stamps })
  | .publish s =>
      match x.ring with
      | some r =>
          if st.Serves s r then
            some
              ({ st with head := Function.update st.head r (x.next + 1) }.setThread t
                { x with next := x.next + 1, pc := .idle })
          else none
      | none => some (st.setThread t { x with pc := .idle })
  | .retire s => some ((st.retire x.hookRing (d.owner s)).setThread t { x with pc := .exited })
  | .idle | .exited => none

def go (t : Thread) : Option (TableState Thread Session Module Process) :=
  if st.Alive d (d.threadHome t) then st.goPc d count t (st.threads t) else none

/-! ## The collector -/

/-- The first head load of `ring_read`. -/
def readHead (r maxN : Nat) : Option (TableState Thread Session Module Process) :=
  if st.collector = .idle then
    if st.head r ≤ st.cursor r ∨ maxN = 0 then some st
    else some { st with collector := .read r (st.head r) maxN }
  else none

/-- The second head load of `ring_read`, and `k` samples of the batch consumed. -/
def consume (k : Nat) : Option (TableState Thread Session Module Process) :=
  match st.collector with
  | .read r h maxN =>
      let start := readStart h mask (st.cursor r)
      let stop := readStop h start maxN
      let first := readFirst (firstIntact (st.head r) mask) start stop
      if k ≤ stop - first then
        some
          { st with
            lost := st.lost + (first - st.cursor r)
            cursor := Function.update st.cursor r (first + k)
            collector := .idle }
      else none
  | _ => none

/-- The next access of the collector. -/
def work : Option (TableState Thread Session Module Process) :=
  match st.collector with
  | .anchor i =>
      if i < count then
        some { st with cursor := Function.update st.cursor i (st.head i), collector := .anchor (i + 1) }
      else some { st with collector := .idle }
  | .load i =>
      if i < count then
        some
          { st with
            collector :=
              if ringState (st.owner i) = kRingRetired then .drained i (st.owner i) else .load (i + 1) }
      else some { st with collector := .idle }
  | .drained i seen =>
      some { st with collector := if st.cursor i ≥ st.head i then .free i seen else .load (i + 1) }
  | .free i seen =>
      if st.owner i = seen then some { st.setOwner i kRingFree with collector := .load (i + 1) }
      else some { st with collector := .load (i + 1) }
  | .scan i =>
      if i < count then
        some
          { st with
            collector :=
              if ringState (st.owner i) = kRingActive ∧ ringPid (st.owner i) ≠ self then .alive i (st.owner i)
              else .scan (i + 1) }
      else some { st with collector := .idle }
  | .alive i owner =>
      some
        { st with
          collector := if st.occupant (ringPid owner) = none then .retire i owner else .scan (i + 1) }
  | .retire i owner => some { st.retire i owner with collector := .scan (i + 1) }
  | .idle | .read _ _ _ => none

def step : TableAction Thread Session Module Process → TableState Thread Session Module Process →
    Option (TableState Thread Session Module Process)
  | .spawn p, st => st.spawn d p
  | .die p, st => st.die d p
  | .start s, st => st.start d s
  | .shutdown s, st => st.shutdown d count s
  | .attachLive m s, st => st.attachLive d m s
  | .attachCurrent m s, st => st.attachCurrent d m s
  | .stamp t, st => st.enter d st.current true t
  | .prepare t, st => st.enter d st.live false t
  | .exit t, st => st.exit d t
  | .go t, st => st.go d count t
  | .read r maxN, st => st.readHead r maxN
  | .consume k, st => st.consume mask k
  | .release, st => if st.collector = .idle then some { st with collector := .load 0 } else none
  | .reclaim, st => if st.collector = .idle then some { st with collector := .scan 0 } else none
  | .work, st => st.work count self

end TableState

/-- A table laid out by `create` or left by earlier owners, all of its rings free, and a collector about to
anchor its cursors. -/
structure TableInit (st : TableState Thread Session Module Process) : Prop where
  owner : ∀ i, st.owner i = kRingFree
  live : ∀ m, st.live m = none
  current : ∀ m, st.current m = none
  phase : ∀ s, st.phase s = .unborn
  threads : ∀ t, st.threads t = ⟨0, none, 0, 0, 0, .idle⟩
  born : ∀ p, st.born p = false
  occupant : ∀ pid, st.occupant pid = none
  cursor : ∀ i, st.cursor i ≤ st.head i
  collector : st.collector = .anchor 0

/-- Every interleaving on a table of `count` rings of `mask + 1` slots, with a collector in process `self`. -/
def tableSystem (d : Deployment Thread Session Module Process) (count mask : Nat) (self : UInt32) :
    System (TableState Thread Session Module Process) (TableAction Thread Session Module Process) where
  Init := TableInit
  step := TableState.step d count mask self

end SlickPerfmon
