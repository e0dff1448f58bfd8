import SlickPerfmon.Library.TransitionSystem
import SlickPerfmon.Pairing.Stamp

/-!
# `detail::thread_ring`

One thread's ring, at the grain of single loads and stores: the writer stores the three fields of a slot and
then the head, the reader loads the head, the slots field by field, and the head again. Indices count samples
ever published and are natural numbers. `ringRead` is the same read as one function of the two heads it saw.
-/

namespace SlickPerfmon

open Library

/-- First index still guaranteed intact once the head reads `h`. -/
def firstIntact (h mask : Nat) : Nat := if h > mask then h - mask else 0

def readStart (h mask cursor : Nat) : Nat :=
  if cursor > firstIntact h mask then cursor else firstIntact h mask

def readStop (h start maxN : Nat) : Nat := if h - start > maxN then start + maxN else h

/-- Where the batch starts once `valid` is the first index that survived the copy. -/
def readFirst (valid start stop : Nat) : Nat :=
  if valid > start then (if valid < stop then valid else stop) else start

/-- What a call of `ring_read` leaves: the moved cursor, the batch and what was added to `lost`. -/
structure ReadResult where
  cursor : Nat
  batch : List Sample
  lost : Nat
deriving DecidableEq, Repr

/-- `ring_read` on the samples `log`, with the head read as `h` before the copy and as `h'` after it. -/
def ringRead (log : Nat → Sample) (mask h h' cursor maxN : Nat) : ReadResult :=
  if h ≤ cursor ∨ maxN = 0 then ⟨cursor, [], 0⟩
  else
    let start := readStart h mask cursor
    let stop := readStop h start maxN
    let first := readFirst (firstIntact h' mask) start stop
    ⟨first, (List.range (stop - first)).map fun k => log (first + k), first - cursor⟩

/-! ## The writer and the reader -/

/-- Where the writer stands in `publish`: the store it does next, of the sample it is publishing. -/
inductive WriterPc
  | idle
  | timestamp (s : Sample)
  | point (s : Sample)
  | event (s : Sample)
  | head (s : Sample)
deriving DecidableEq, Repr

/-- The fields of the current slot that the reader has loaded. -/
inductive Loaded
  | none
  | timestamp (ts : UInt64)
  | point (ts : UInt64) (p : UInt32)
deriving DecidableEq, Repr

/-- The local variables of `ring_read` while it copies. -/
structure Copy where
  h : Nat
  maxN : Nat
  start : Nat
  stop : Nat
  i : Nat
  scratch : List Sample
  loaded : Loaded
deriving DecidableEq, Repr

inductive ReaderPc
  | idle
  | copying (c : Copy)
  | returned (batch : List Sample)
deriving DecidableEq, Repr

/-- `published`, `initial`, `consumed` and the two `call` fields only record what happened: the samples published
so far, the cursor at the start, what the caller consumed, and cursor and `lost` as the current call found them. -/
structure RingState where
  slots : Nat → Sample
  head : Nat
  next : Nat
  writer : WriterPc
  reader : ReaderPc
  cursor : Nat
  lost : Nat
  published : List Sample
  initial : Nat
  consumed : Nat
  callCursor : Nat
  callLost : Nat

/-- One atomic access of the writer or the reader, or the caller taking `k` samples of a batch. -/
inductive RingAction
  | publish (s : Sample)
  | store
  | read (maxN : Nat)
  | load
  | consume (k : Nat)
deriving DecidableEq, Repr

namespace RingState

variable (mask : Nat)

/-- A store of the writer into slot `next & mask`, and the head store that ends a publish. -/
def storeNext (s : RingState) : Option RingState :=
  let slot := s.slots (s.next &&& mask)
  match s.writer with
  | .idle => none
  | .timestamp x =>
      some
        { s with
          slots := Function.update s.slots (s.next &&& mask) { slot with timestamp := x.timestamp }
          writer := .point x }
  | .point x =>
      some
        { s with
          slots := Function.update s.slots (s.next &&& mask) { slot with point := x.point }
          writer := .event x }
  | .event x =>
      some
        { s with
          slots := Function.update s.slots (s.next &&& mask) { slot with event := x.event }
          writer := .head x }
  | .head x =>
      some
        { s with
          head := s.next + 1
          next := s.next + 1
          published := s.published ++ [x]
          writer := .idle }

/-- The first head load of `ring_read`. -/
def readHead (maxN : Nat) (s : RingState) : Option RingState :=
  match s.reader with
  | .idle =>
      let s := { s with callCursor := s.cursor, callLost := s.lost }
      let h := s.head
      if h ≤ s.cursor ∨ maxN = 0 then some { s with reader := .returned [] }
      else
        let start := readStart h mask s.cursor
        some { s with reader := .copying ⟨h, maxN, start, readStop h start maxN, start, [], .none⟩ }
  | _ => none

/-- The next load of `ring_read`: a field of slot `i & mask`, or the head once the copy is done. -/
def loadNext (s : RingState) : Option RingState :=
  match s.reader with
  | .copying c =>
      if c.i < c.stop then
        let slot := s.slots (c.i &&& mask)
        match c.loaded with
        | .none => some { s with reader := .copying { c with loaded := .timestamp slot.timestamp } }
        | .timestamp ts => some { s with reader := .copying { c with loaded := .point ts slot.point } }
        | .point ts p =>
            some
              { s with
                reader := .copying
                  { c with i := c.i + 1, scratch := c.scratch ++ [⟨ts, p, slot.event⟩], loaded := .none } }
      else
        let first := readFirst (firstIntact s.head mask) c.start c.stop
        some
          { s with
            lost := s.lost + (first - s.cursor)
            cursor := first
            reader := .returned (c.scratch.drop (first - c.start)) }
  | _ => none

def step : RingAction → RingState → Option RingState
  | .publish x, s => if s.writer = .idle then some { s with writer := .timestamp x } else none
  | .store, s => s.storeNext mask
  | .read maxN, s => s.readHead mask maxN
  | .load, s => s.loadNext mask
  | .consume k, s =>
      match s.reader with
      | .returned batch =>
          if k ≤ batch.length then
            some { s with cursor := s.cursor + k, consumed := s.consumed + k, reader := .idle }
          else none
      | _ => none

end RingState

/-- A ring both sides have attached to: any number of samples published before, the newest of them still in
their slots, and a cursor that is not past the head. -/
structure RingInit (mask : Nat) (s : RingState) : Prop where
  writer : s.writer = .idle
  reader : s.reader = .idle
  next : s.next = s.head
  head : s.head = s.published.length
  slots : ∀ i x, s.published[i]? = some x → s.head ≤ i + mask → s.slots (i &&& mask) = x
  cursor : s.cursor ≤ s.head
  initial : s.initial = s.cursor
  lost : s.lost = 0
  consumed : s.consumed = 0

/-- Every interleaving of one writer and one reader on a ring of `mask + 1` slots. -/
def ringSystem (mask : Nat) : System RingState RingAction where
  Init := RingInit mask
  step := RingState.step mask

end SlickPerfmon
