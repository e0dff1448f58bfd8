import SlickPerfmon.Library.TransitionSystem
import SlickPerfmon.Session.Start

/-!
# Laying out a control block under its attachers

`create_shared`, `attach_shared`, `initialise`, `await_ready` and `validate` at the grain of single stores and loads, for
any number of parties that open one segment. Opening is atomic: the first `open_or_create` makes the segment. A party
that stops taking steps was preempted or died.
-/

namespace SlickPerfmon

open Library

/-! ## The segment -/

/-- The words of a control block, its names and its ring table. -/
structure BlockWords where
  header : ControlHeader
  tscHzMilli : UInt64
  invariantTsc : UInt32
  initState : UInt32
  nameGeneration : UInt64
  keys : Nat → UInt64
  names : Nat → Nat → UInt8
  tableCount : UInt32
  tableCapacity : UInt32
  nextTag : UInt32
  heads : Nat → UInt64
  owners : Nat → UInt64

/-- A store to one word. -/
inductive BlockStore
  | magic (v : UInt32)
  | layoutVersion (v : UInt32)
  | maxNames (v : UInt32)
  | nameCapacity (v : UInt32)
  | ringCount (v : UInt32)
  | ringCapacity (v : UInt32)
  | tscHzMilli (v : UInt64)
  | invariantTsc (v : UInt32)
  | initState (v : UInt32)
  | nameGeneration (v : UInt64)
  | key (i : Nat) (v : UInt64)
  | nameByte (i j : Nat) (v : UInt8)
  | tableCount (v : UInt32)
  | tableCapacity (v : UInt32)
  | nextTag (v : UInt32)
  | head (i : Nat) (v : UInt64)
  | owner (i : Nat) (v : UInt64)
deriving DecidableEq, Repr

namespace BlockStore

def apply (b : BlockWords) : BlockStore → BlockWords
  | .magic v => { b with header := { b.header with magic := v } }
  | .layoutVersion v => { b with header := { b.header with layoutVersion := v } }
  | .maxNames v => { b with header := { b.header with maxNames := v } }
  | .nameCapacity v => { b with header := { b.header with nameCapacity := v } }
  | .ringCount v => { b with header := { b.header with ringCount := v } }
  | .ringCapacity v => { b with header := { b.header with ringCapacity := v } }
  | .tscHzMilli v => { b with tscHzMilli := v }
  | .invariantTsc v => { b with invariantTsc := v }
  | .initState v => { b with initState := v }
  | .nameGeneration v => { b with nameGeneration := v }
  | .key i v => { b with keys := Function.update b.keys i v }
  | .nameByte i j v => { b with names := Function.update b.names i (Function.update (b.names i) j v) }
  | .tableCount v => { b with tableCount := v }
  | .tableCapacity v => { b with tableCapacity := v }
  | .nextTag v => { b with nextTag := v }
  | .head i v => { b with heads := Function.update b.heads i v }
  | .owner i v => { b with owners := Function.update b.owners i v }

def applyAll (b : BlockWords) (stores : List BlockStore) : BlockWords := stores.foldl apply b

/-- What a party that has the block writes: names, the calibration, tags, claims and heads. -/
def isUse : BlockStore → Bool
  | .key .. | .nameByte .. | .nameGeneration _ | .tscHzMilli _ | .invariantTsc _ | .nextTag _ | .head .. | .owner .. =>
      true
  | _ => false

end BlockStore

def kInitialising : UInt32 := 1
def kReady : UInt32 := 2
/-- The loads of `await_ready`. -/
def kAwaitReadyLoads : Nat := 10000

/-- The arguments of `create_shared` and `attach_shared`. -/
structure BlockGeometry where
  maxNames : UInt32
  rings : UInt32
  ringCapacity : UInt32
deriving DecidableEq, Repr

namespace BlockGeometry

variable (g : BlockGeometry)

/-- The stores of `ring_table::create`. -/
def createTable : List BlockStore :=
  [.tableCount g.rings, .tableCapacity g.ringCapacity, .nextTag 1] ++
    (List.range g.rings.toNat).flatMap fun i => [.head i 0, .owner i 0]

/-- The stores of `initialise` but for the last. -/
def layout : List BlockStore :=
  [.initState kInitialising, .magic ControlHeader.kMagic, .layoutVersion ControlHeader.kLayoutVersion,
    .maxNames g.maxNames, .nameCapacity ControlHeader.kNameCapacity, .ringCount g.rings, .ringCapacity g.ringCapacity,
    .tscHzMilli 0, .invariantTsc 1, .nameGeneration 0] ++
  (List.range g.maxNames.toNat).flatMap (fun i => [.key i 0, .nameByte i 0 0]) ++
  if g.rings > 0 then g.createTable else []

/-- The stores of `initialise`, in program order. -/
def initialise : List BlockStore := g.layout ++ [.initState kReady]

def header : ControlHeader := .initialise g.maxNames g.rings g.ringCapacity

end BlockGeometry

/-! ## The parties -/

/-- The loads of `validate`. -/
inductive HeaderCheck
  | magic
  | layoutVersion
  | nameCapacity
  | maxNames
  | ringCount
  | ringCapacity
deriving DecidableEq, Repr

/-- Where a party stands: before it opens the segment, with stores of `initialise` still to make, after `n` loads of
`await_ready`, before a load of `validate`, or returned: `true`, `false` for want of a segment or of a ready one, or
with an exception. -/
inductive AttachPc
  | idle
  | initialise (todo : List BlockStore)
  | await (n : Nat)
  | check (c : HeaderCheck)
  | attached
  | absent
  | timedOut
  | threw (what : List UInt8)
deriving DecidableEq, Repr

def HeaderCheck.step (h : ControlHeader) (g : BlockGeometry) : HeaderCheck → AttachPc
  | .magic =>
      if h.magic ≠ ControlHeader.kMagic then .threw (ascii "slick-perfmon: control block magic mismatch")
      else .check .layoutVersion
  | .layoutVersion =>
      if h.layoutVersion ≠ ControlHeader.kLayoutVersion then
        .threw (ascii "slick-perfmon: control block layout version mismatch")
      else .check .nameCapacity
  | .nameCapacity =>
      if h.nameCapacity ≠ ControlHeader.kNameCapacity then
        .threw (ascii "slick-perfmon: peer built with a different SLICK_PERFMON_NAME_CAPACITY")
      else .check .maxNames
  | .maxNames =>
      if h.maxNames ≠ g.maxNames then .threw (ascii "slick-perfmon: peer configured a different max_names")
      else .check .ringCount
  | .ringCount =>
      if h.ringCount ≠ g.rings then .threw ringsDiffer else if g.rings > 0 then .check .ringCapacity else .attached
  | .ringCapacity => if h.ringCapacity ≠ g.ringCapacity then .threw ringsDiffer else .attached
where
  ringsDiffer : List UInt8 :=
    ascii ("slick-perfmon: peer configured a different max_thread_rings or " ++ "thread_ring_capacity")

/-- `segment` is none until a party makes it. `creator` and `uses` only record: who made it, and the stores of the
parties that had the block. -/
structure AttachState (Party : Type) where
  segment : Option BlockWords
  parties : Party → AttachPc
  creator : Option Party
  uses : List BlockStore

/-- The next step of a party, or a store of one that has the block. -/
inductive AttachAction (Party : Type)
  | go (p : Party)
  | use (p : Party) (store : BlockStore)
deriving DecidableEq

section Model

variable {Party : Type} [DecidableEq Party]

namespace AttachState

def goto (s : AttachState Party) (p : Party) (pc : AttachPc) : AttachState Party :=
  { s with parties := Function.update s.parties p pc }

/-- `fresh` is what the segment holds when it is made; `creates` is `open_or_create` rather than `open_existing`. -/
def go (fresh : BlockWords) (creates : Bool) (g : BlockGeometry) (s : AttachState Party) (p : Party) :
    Option (AttachState Party) :=
  match s.parties p, s.segment with
  | .idle, some _ => some (s.goto p (.await 0))
  | .idle, none =>
      if creates then
        some { s with
          segment := some fresh
          creator := some p
          parties := Function.update s.parties p (.initialise g.initialise) }
      else some (s.goto p .absent)
  | .initialise (store :: todo), some b =>
      some { s.goto p (if todo = [] then .attached else .initialise todo) with segment := some (store.apply b) }
  | .await n, some b =>
      if b.initState = kReady then some (s.goto p (.check .magic))
      else some (s.goto p (if n + 1 < kAwaitReadyLoads then .await (n + 1) else .timedOut))
  | .check c, some b => some (s.goto p (c.step b.header g))
  | _, _ => none

def use (s : AttachState Party) (p : Party) (store : BlockStore) : Option (AttachState Party) :=
  match s.parties p, s.segment with
  | .attached, some b =>
      if store.isUse then some { s with segment := some (store.apply b), uses := s.uses ++ [store] } else none
  | _, _ => none

end AttachState

/-- Every interleaving of parties on one segment that nobody has made yet. -/
def attachSystem (fresh : BlockWords) (creates : Party → Bool) (geometry : Party → BlockGeometry) :
    System (AttachState Party) (AttachAction Party) where
  Init s := s.segment = none ∧ s.creator = none ∧ s.uses = [] ∧ ∀ p, s.parties p = .idle
  step a s :=
    match a with
    | .go p => s.go fresh (creates p) (geometry p) p
    | .use p store => s.use p store

end Model

/-! ## The stores of `initialise` -/

namespace BlockStore

/-- A store that does not put the block at ready. -/
def Quiet (store : BlockStore) : Prop := store ≠ .initState kReady

theorem applyAll_append (b : BlockWords) (stores stores' : List BlockStore) :
    applyAll b (stores ++ stores') = applyAll (applyAll b stores) stores' := List.foldl_append

theorem apply_unready {b : BlockWords} (hb : b.initState ≠ kReady) {store : BlockStore} (h : store.Quiet) :
    (store.apply b).initState ≠ kReady := by
  cases store with
  | initState v => exact fun hv => h (congrArg BlockStore.initState hv)
  | _ => exact hb

theorem applyAll_unready {b : BlockWords} (hb : b.initState ≠ kReady) {stores : List BlockStore}
    (h : ∀ store ∈ stores, store.Quiet) : (applyAll b stores).initState ≠ kReady := by
  induction stores generalizing b with
  | nil => exact hb
  | cons store stores ih =>
      exact ih (apply_unready hb (h store List.mem_cons_self)) fun s hs => h s (List.mem_cons_of_mem _ hs)

/-- The words that no party with the block writes. -/
structure SameLayout (b b' : BlockWords) : Prop where
  header : b'.header = b.header
  initState : b'.initState = b.initState
  tableCount : b'.tableCount = b.tableCount
  tableCapacity : b'.tableCapacity = b.tableCapacity

theorem apply_sameLayout (b : BlockWords) {store : BlockStore} (h : store.isUse = true) :
    SameLayout b (store.apply b) := by
  cases store with
  | key | nameByte | nameGeneration | tscHzMilli | invariantTsc | nextTag | head | owner => exact ⟨rfl, rfl, rfl, rfl⟩
  | _ => cases h

theorem applyAll_sameLayout (b : BlockWords) {stores : List BlockStore} (h : ∀ store ∈ stores, store.isUse = true) :
    SameLayout b (applyAll b stores) := by
  induction stores generalizing b with
  | nil => exact ⟨rfl, rfl, rfl, rfl⟩
  | cons store stores ih =>
      have h₁ := apply_sameLayout b (h store List.mem_cons_self)
      have h₂ := ih (store.apply b) fun s hs => h s (List.mem_cons_of_mem _ hs)
      exact ⟨h₂.header.trans h₁.header, h₂.initState.trans h₁.initState, h₂.tableCount.trans h₁.tableCount,
        h₂.tableCapacity.trans h₁.tableCapacity⟩

end BlockStore

/-! ## What `initialise` leaves -/

/-- A block as its creator hands it over: no names, and every ring free. -/
structure LaidOut (g : BlockGeometry) (b : BlockWords) : Prop where
  header : b.header = g.header
  initState : b.initState = kReady
  calibration : b.tscHzMilli = 0 ∧ b.invariantTsc = 1
  nameGeneration : b.nameGeneration = 0
  names : ∀ i < g.maxNames.toNat, b.keys i = 0 ∧ b.names i 0 = 0
  table : g.rings > 0 → b.tableCount = g.rings ∧ b.tableCapacity = g.ringCapacity ∧ b.nextTag = 1
  rings : ∀ i < g.rings.toNat, b.heads i = 0 ∧ b.owners i = 0

namespace BlockGeometry

open BlockStore

/-- One more entry of a table written from the front. -/
theorem update_next {α : Type} (f g : Nat → α) (n : Nat) :
    Function.update (fun i => if i < n then g i else f i) n (g n) = fun i => if i < n + 1 then g i else f i := by
  funext i
  rcases Nat.lt_trichotomy i n with h | rfl | h
  · simp [Function.update_of_ne (Nat.ne_of_lt h), h, Nat.lt_succ_of_lt h]
  · simp
  · simp [Function.update_of_ne (Nat.ne_of_gt h), Nat.not_lt.mpr (Nat.le_of_lt h), Nat.not_lt.mpr h]

theorem applyAll_clearNames (b : BlockWords) (n : Nat) :
    applyAll b ((List.range n).flatMap fun i => [.key i 0, .nameByte i 0 0]) =
      { b with
        keys := fun i => if i < n then 0 else b.keys i
        names := fun i => if i < n then Function.update (b.names i) 0 0 else b.names i } := by
  induction n with
  | zero => simp [applyAll]
  | succ n ih =>
      rw [List.range_succ, List.flatMap_append, applyAll_append, ih, ← update_next b.keys (fun _ => 0),
        ← update_next b.names fun i => Function.update (b.names i) 0 0]
      simp [applyAll, apply]

theorem applyAll_freeRings (b : BlockWords) (n : Nat) :
    applyAll b ((List.range n).flatMap fun i => [.head i 0, .owner i 0]) =
      { b with
        heads := fun i => if i < n then 0 else b.heads i
        owners := fun i => if i < n then 0 else b.owners i } := by
  induction n with
  | zero => simp [applyAll]
  | succ n ih =>
      rw [List.range_succ, List.flatMap_append, applyAll_append, ih, ← update_next b.heads (fun _ => 0),
        ← update_next b.owners (fun _ => 0)]
      simp [applyAll, apply]

theorem laidOut (g : BlockGeometry) (fresh : BlockWords) : LaidOut g (applyAll fresh g.initialise) := by
  have hrings : ¬ g.rings > 0 → g.rings.toNat = 0 := by
    intro h
    rw [gt_iff_lt, UInt32.lt_iff_toNat_lt, UInt32.toNat_zero] at h
    omega
  unfold initialise layout createTable
  split
  · rename_i hpos
    rw [applyAll_append, applyAll_append, applyAll_append, applyAll_append, applyAll_clearNames, applyAll_freeRings]
    refine ⟨rfl, rfl, ⟨rfl, rfl⟩, rfl, fun i hi => ?_, fun _ => ⟨rfl, rfl, rfl⟩, fun i hi => ?_⟩
    · simp [applyAll, apply, hi]
    · simp [applyAll, apply, hi]
  · rename_i hpos
    rw [applyAll_append, List.append_nil, applyAll_append, applyAll_clearNames]
    refine ⟨rfl, rfl, ⟨rfl, rfl⟩, rfl, fun i hi => ?_, fun h => absurd h hpos, fun i hi => ?_⟩
    · simp [applyAll, apply, hi]
    · rw [hrings hpos] at hi
      exact absurd hi (Nat.not_lt_zero i)

/-- Only the last store puts the block at ready. -/
theorem quiet_layout (g : BlockGeometry) : ∀ store ∈ g.layout, store.Quiet := by
  intro store h
  rintro rfl
  simp only [layout, createTable, List.mem_append, List.mem_flatMap] at h
  rcases h with (h | ⟨i, -, h⟩) | h
  · simp [kInitialising, kReady] at h
  · simp at h
  · split at h
    · simp at h
    · cases h

end BlockGeometry

/-! ## What a party reads -/

/-- What the loads before `c` have found. -/
def HeaderCheck.Passed (h : ControlHeader) (g : BlockGeometry) : HeaderCheck → Prop
  | .magic => True
  | .layoutVersion => h.magic = ControlHeader.kMagic
  | .nameCapacity => h.magic = ControlHeader.kMagic ∧ h.layoutVersion = ControlHeader.kLayoutVersion
  | .maxNames =>
      h.magic = ControlHeader.kMagic ∧ h.layoutVersion = ControlHeader.kLayoutVersion ∧
        h.nameCapacity = ControlHeader.kNameCapacity
  | .ringCount =>
      h.magic = ControlHeader.kMagic ∧ h.layoutVersion = ControlHeader.kLayoutVersion ∧
        h.nameCapacity = ControlHeader.kNameCapacity ∧ h.maxNames = g.maxNames
  | .ringCapacity =>
      h.magic = ControlHeader.kMagic ∧ h.layoutVersion = ControlHeader.kLayoutVersion ∧
        h.nameCapacity = ControlHeader.kNameCapacity ∧ h.maxNames = g.maxNames ∧ h.ringCount = g.rings ∧ g.rings > 0

/-- What `validate` says of a header. -/
def BlockGeometry.validates (h : ControlHeader) (g : BlockGeometry) : Except (List UInt8) Unit :=
  h.validate g.maxNames g.rings g.ringCapacity

/-- Where a party stands once a creator of header `h` is there, and done or not. -/
def PartyInv (done : Prop) (h : ControlHeader) (g : BlockGeometry) : AttachPc → Prop
  | .idle | .absent | .timedOut => True
  | .initialise _ => False
  | .await n => n < kAwaitReadyLoads
  | .check c => done ∧ c.Passed h g
  | .attached => done ∧ g.validates h = .ok ()
  | .threw what => done ∧ g.validates h = .error what

/-- The loads one by one come to what `validate` says. -/
theorem HeaderCheck.step_inv {done : Prop} (hd : done) {h : ControlHeader} {g : BlockGeometry} {c : HeaderCheck}
    (hc : c.Passed h g) : PartyInv done h g (c.step h g) := by
  cases c with
  | magic =>
      simp only [HeaderCheck.step]
      split
      · rename_i hne
        exact ⟨hd, by simp [BlockGeometry.validates, ControlHeader.validate, hne]⟩
      · rename_i heq
        exact ⟨hd, not_not.mp heq⟩
  | layoutVersion =>
      have h₁ : h.magic = ControlHeader.kMagic := hc
      simp only [HeaderCheck.step]
      split
      · rename_i hne
        exact ⟨hd, by simp [BlockGeometry.validates, ControlHeader.validate, h₁, hne]⟩
      · rename_i heq
        exact ⟨hd, h₁, not_not.mp heq⟩
  | nameCapacity =>
      obtain ⟨h₁, h₂⟩ := hc
      simp only [HeaderCheck.step]
      split
      · rename_i hne
        exact ⟨hd, by simp [BlockGeometry.validates, ControlHeader.validate, h₁, h₂, hne]⟩
      · rename_i heq
        exact ⟨hd, h₁, h₂, not_not.mp heq⟩
  | maxNames =>
      obtain ⟨h₁, h₂, h₃⟩ := hc
      simp only [HeaderCheck.step]
      split
      · rename_i hne
        exact ⟨hd, by simp [BlockGeometry.validates, ControlHeader.validate, h₁, h₂, h₃, hne]⟩
      · rename_i heq
        exact ⟨hd, h₁, h₂, h₃, not_not.mp heq⟩
  | ringCount =>
      obtain ⟨h₁, h₂, h₃, h₄⟩ := hc
      simp only [HeaderCheck.step]
      split
      · rename_i hne
        exact ⟨hd, by simp [BlockGeometry.validates, ControlHeader.validate, h₁, h₂, h₃, h₄, hne,
          HeaderCheck.step.ringsDiffer]⟩
      · rename_i heq
        split
        · rename_i hpos
          exact ⟨hd, h₁, h₂, h₃, h₄, not_not.mp heq, hpos⟩
        · rename_i hpos
          have heq := not_not.mp heq
          exact ⟨hd, by simp [BlockGeometry.validates, ControlHeader.validate, h₁, h₂, h₃, h₄, heq, hpos]⟩
  | ringCapacity =>
      obtain ⟨h₁, h₂, h₃, h₄, h₅, hpos⟩ := hc
      simp only [HeaderCheck.step]
      split
      · rename_i hne
        exact ⟨hd, by simp [BlockGeometry.validates, ControlHeader.validate, h₁, h₂, h₃, h₄, h₅, hpos, hne,
          HeaderCheck.step.ringsDiffer]⟩
      · rename_i heq
        have heq := not_not.mp heq
        exact ⟨hd, by simp [BlockGeometry.validates, ControlHeader.validate, h₁, h₂, h₃, h₄, h₅, heq]⟩

/-! ## The protocol's invariant -/

section Protocol

variable {Party : Type} [DecidableEq Party] {fresh : BlockWords} {creates : Party → Bool}
  {geometry : Party → BlockGeometry}

omit [DecidableEq Party] in
/-- The segment is there: `c` makes it, and has the stores `todo` of `initialise` still to make. -/
structure Making (fresh : BlockWords) (geometry : Party → BlockGeometry) (c : Party) (todo : List BlockStore)
    (s : AttachState Party) : Prop where
  creator : s.creator = some c
  segment : ∃ front, (geometry c).initialise = front ++ todo ∧
    s.segment = some (BlockStore.applyAll (BlockStore.applyAll fresh front) s.uses)
  uses : ∀ store ∈ s.uses, store.isUse = true
  stands : todo = [] ∧ s.parties c = .attached ∨ todo ≠ [] ∧ s.parties c = .initialise todo ∧ s.uses = []
  others : ∀ p, p ≠ c → PartyInv (todo = []) (geometry c).header (geometry p) (s.parties p)

omit [DecidableEq Party] in
/-- Nobody has made the segment. -/
structure Unmade (s : AttachState Party) : Prop where
  creator : s.creator = none
  segment : s.segment = none
  uses : s.uses = []
  stands : ∀ p, s.parties p = .idle ∨ s.parties p = .absent

def AttachInv (fresh : BlockWords) (geometry : Party → BlockGeometry) (s : AttachState Party) : Prop :=
  Unmade s ∨ ∃ c todo, Making fresh geometry c todo s

namespace Making

variable {c : Party} {todo : List BlockStore} {s : AttachState Party}

omit [DecidableEq Party]

/-- Until the creator is done the block is not ready. -/
theorem unready (h : Making fresh geometry c todo s) (hfresh : fresh.initState ≠ kReady) (htodo : todo ≠ [])
    {b : BlockWords} (hb : s.segment = some b) : b.initState ≠ kReady := by
  obtain ⟨front, hsplit, hseg⟩ := h.segment
  rcases h.stands with ⟨hnil, -⟩ | ⟨-, -, huses⟩
  · exact absurd hnil htodo
  · rw [hseg, huses] at hb
    cases hb
    refine BlockStore.applyAll_unready hfresh fun store hstore => BlockGeometry.quiet_layout (geometry c) store ?_
    -- what is done is in front of the last store
    obtain ⟨todo', last, rfl⟩ := List.eq_nil_or_concat todo |>.resolve_left htodo
    rw [BlockGeometry.initialise, List.concat_eq_append, ← List.append_assoc] at hsplit
    rw [(List.append_inj' hsplit rfl).1]
    exact List.mem_append_left _ hstore

/-- A creator that is done has left its layout, and only words that are free to change have changed since. -/
theorem laidOut (h : Making fresh geometry c [] s) {b : BlockWords} (hb : s.segment = some b) :
    LaidOut (geometry c) (BlockStore.applyAll fresh (geometry c).initialise) ∧
      b = BlockStore.applyAll (BlockStore.applyAll fresh (geometry c).initialise) s.uses := by
  obtain ⟨front, hsplit, hseg⟩ := h.segment
  rw [List.append_nil] at hsplit
  rw [hseg, ← hsplit] at hb
  exact ⟨(geometry c).laidOut fresh, (Option.some.inj hb).symm⟩

theorem sameLayout (h : Making fresh geometry c [] s) {b : BlockWords} (hb : s.segment = some b) :
    b.header = (geometry c).header ∧ b.initState = kReady := by
  obtain ⟨hlaid, rfl⟩ := h.laidOut hb
  have hsame := BlockStore.applyAll_sameLayout (BlockStore.applyAll fresh (geometry c).initialise) h.uses
  exact ⟨hsame.header.trans hlaid.header, hsame.initState.trans hlaid.initState⟩

end Making

/-- A step of a party that is not the creator. -/
theorem Making.follow {c p : Party} {todo : List BlockStore} {s : AttachState Party}
    (h : Making fresh geometry c todo s) (hp : p ≠ c) {pc : AttachPc}
    (hpc : PartyInv (todo = []) (geometry c).header (geometry p) pc) : Making fresh geometry c todo (s.goto p pc) where
  creator := h.creator
  segment := h.segment
  uses := h.uses
  stands := by
    simp only [AttachState.goto, Function.update_of_ne hp.symm]
    exact h.stands
  others q hq := by
    by_cases hqp : q = p
    · subst hqp
      simpa [AttachState.goto] using hpc
    · simpa [AttachState.goto, Function.update_of_ne hqp] using h.others q hq

/-- One store of the creator. -/
theorem Making.store {c : Party} {store : BlockStore} {todo : List BlockStore} {s : AttachState Party} {b : BlockWords}
    (h : Making fresh geometry c (store :: todo) s) (hb : s.segment = some b) :
    Making fresh geometry c todo
      { s.goto c (if todo = [] then .attached else .initialise todo) with segment := some (store.apply b) } := by
  obtain ⟨front, hsplit, hseg⟩ := h.segment
  obtain ⟨hnil, -⟩ | ⟨-, -, huses⟩ := h.stands
  · cases hnil
  · refine ⟨h.creator, ⟨front ++ [store], by rw [hsplit, List.append_assoc]; rfl, ?_⟩, h.uses, ?_, fun q hq => ?_⟩
    · rw [hseg, huses] at hb
      cases hb
      simp only [AttachState.goto, huses, BlockStore.applyAll_append]
      rfl
    · by_cases hnil : todo = []
      · exact Or.inl ⟨hnil, by simp [AttachState.goto, hnil]⟩
      · exact Or.inr ⟨hnil, by simp [AttachState.goto, hnil], huses⟩
    · have hother := h.others q hq
      simp only [AttachState.goto, Function.update_of_ne hq]
      -- the others are not past the wait
      cases hpc : s.parties q with
      | check c' => rw [hpc] at hother; exact absurd hother.1 (List.cons_ne_nil _ _)
      | attached => rw [hpc] at hother; exact absurd hother.1 (List.cons_ne_nil _ _)
      | threw what => rw [hpc] at hother; exact absurd hother.1 (List.cons_ne_nil _ _)
      | initialise l => rw [hpc] at hother; exact hother.elim
      | await n => rw [hpc] at hother; exact hother
      | _ => trivial

theorem Making.go (hfresh : fresh.initState ≠ kReady) {c p : Party} {todo : List BlockStore} {s s' : AttachState Party}
    (h : Making fresh geometry c todo s) (hs : s.go fresh (creates p) (geometry p) p = some s') :
    ∃ todo', Making fresh geometry c todo' s' := by
  obtain ⟨front, hsplit, hseg⟩ := h.segment
  by_cases hp : p = c
  · subst hp
    rcases h.stands with ⟨-, hpc⟩ | ⟨htodo, hpc, -⟩
    · simp [AttachState.go, hpc] at hs
    · obtain ⟨store, todo, rfl⟩ := List.exists_cons_of_ne_nil htodo
      simp only [AttachState.go, hpc, hseg, Option.some.injEq] at hs
      subst hs
      exact ⟨todo, h.store hseg⟩
  · have hinv := h.others p hp
    refine ⟨todo, ?_⟩
    cases hpc : s.parties p with
    | idle =>
        simp only [AttachState.go, hpc, hseg, Option.some.injEq] at hs
        subst hs
        exact h.follow hp (show 0 < kAwaitReadyLoads by decide)
    | await n =>
        simp only [AttachState.go, hpc, hseg] at hs
        split at hs
        · rename_i hready
          cases hs
          have hdone : todo = [] := by
            by_contra htodo
            exact h.unready hfresh htodo hseg hready
          exact h.follow hp ⟨hdone, trivial⟩
        · cases hs
          refine h.follow hp ?_
          split
          · assumption
          · trivial
    | check c' =>
        rw [hpc] at hinv
        obtain ⟨rfl, hpassed⟩ := hinv
        simp only [AttachState.go, hpc, hseg, Option.some.injEq, (h.sameLayout hseg).1] at hs
        subst hs
        exact h.follow hp (HeaderCheck.step_inv rfl hpassed)
    | initialise l => rw [hpc] at hinv; exact hinv.elim
    | attached => simp [AttachState.go, hpc] at hs
    | absent => simp [AttachState.go, hpc] at hs
    | timedOut => simp [AttachState.go, hpc] at hs
    | threw what => simp [AttachState.go, hpc] at hs

theorem Making.use {c p : Party} {store : BlockStore} {todo : List BlockStore} {s s' : AttachState Party}
    (h : Making fresh geometry c todo s) (hs : s.use p store = some s') : Making fresh geometry c todo s' := by
  obtain ⟨front, hsplit, hseg⟩ := h.segment
  cases hpc : s.parties p with
  | attached =>
      have hdone : todo = [] := by
        by_cases hp : p = c
        · subst hp
          rcases h.stands with ⟨hnil, -⟩ | ⟨-, hinit, -⟩
          · exact hnil
          · rw [hpc] at hinit
            cases hinit
        · have := h.others p hp
          rw [hpc] at this
          exact this.1
      have hstands := h.stands.resolve_right fun hn => hn.1 hdone
      simp only [AttachState.use, hpc, hseg] at hs
      split at hs
      · rename_i huse
        cases hs
        refine ⟨h.creator, ⟨front, hsplit, by rw [BlockStore.applyAll_append]; rfl⟩, fun st hst => ?_,
          Or.inl hstands, h.others⟩
        rcases List.mem_append.mp hst with hst | hst
        · exact h.uses st hst
        · rw [List.mem_singleton.mp hst]
          exact huse
      · cases hs
  | _ => simp [AttachState.use, hpc] at hs

theorem AttachInv.step (hfresh : fresh.initState ≠ kReady) (a : AttachAction Party) (s s' : AttachState Party)
    (h : AttachInv fresh geometry s) (hs : (attachSystem fresh creates geometry).step a s = some s') :
    AttachInv fresh geometry s' := by
  rcases h with h | ⟨c, todo, h⟩
  · cases a with
    | go p =>
        simp only [attachSystem, AttachState.go, h.segment] at hs
        rcases h.stands p with hpc | hpc
        · simp only [hpc] at hs
          split at hs
          · cases hs
            refine Or.inr ⟨p, (geometry p).initialise, rfl, ⟨[], rfl, by rw [h.uses]; rfl⟩, by rw [h.uses]; simp,
              Or.inr ⟨by simp [BlockGeometry.initialise], by simp, h.uses⟩, fun q hq => ?_⟩
            simp only [Function.update_of_ne hq]
            rcases h.stands q with hq | hq <;> rw [hq] <;> trivial
          · cases hs
            refine Or.inl ⟨h.creator, h.segment, h.uses, fun q => ?_⟩
            by_cases hq : q = p
            · subst hq
              exact Or.inr (by simp [AttachState.goto])
            · simpa [AttachState.goto, Function.update_of_ne hq] using h.stands q
        · simp [hpc] at hs
    | use p store =>
        simp only [attachSystem, AttachState.use, h.segment] at hs
        rcases h.stands p with hpc | hpc <;> simp [hpc] at hs
  · cases a with
    | go p => exact Or.inr ⟨c, h.go hfresh hs⟩
    | use p store => exact Or.inr ⟨c, todo, h.use hs⟩

theorem attachInv_reachable (hfresh : fresh.initState ≠ kReady) {s : AttachState Party}
    (hs : (attachSystem fresh creates geometry).Reachable s) : AttachInv fresh geometry s :=
  hs.invariant (fun _ h => Or.inl ⟨h.2.1, h.1, h.2.2.1, fun p => Or.inl (h.2.2.2 p)⟩) (AttachInv.step hfresh)

end Protocol

/-! ## What the parties agree on -/

namespace BlockGeometry

/-- The peers have configured the same block. -/
def Agrees (g g' : BlockGeometry) : Prop :=
  g.maxNames = g'.maxNames ∧ g.rings = g'.rings ∧ (g'.rings > 0 → g.ringCapacity = g'.ringCapacity)

instance (g g' : BlockGeometry) : Decidable (Agrees g g') := inferInstanceAs (Decidable (_ ∧ _))

/-- The message of a peer of geometry `g'` that finds the block of one of geometry `g`. -/
def mismatch (g g' : BlockGeometry) : List UInt8 :=
  if g.maxNames ≠ g'.maxNames then ascii "slick-perfmon: peer configured a different max_names"
  else HeaderCheck.step.ringsDiffer

theorem validates_header (g g' : BlockGeometry) :
    g'.validates g.header = if Agrees g g' then .ok () else .error (mismatch g g') := by
  simp only [validates, ControlHeader.validate, header, ControlHeader.initialise, ne_eq, not_true_eq_false, if_false,
    mismatch, Agrees]
  by_cases hnames : g.maxNames = g'.maxNames
  · simp only [hnames, not_true_eq_false, if_false, true_and]
    by_cases hrings : g.rings = g'.rings
    · simp only [hrings, not_true_eq_false, false_or, true_and]
      by_cases hpos : g'.rings > 0
      · by_cases hcap : g.ringCapacity = g'.ringCapacity
        · simp [hcap]
        · simp [hpos, hcap, HeaderCheck.step.ringsDiffer]
      · simp [hpos]
    · simp [hrings, HeaderCheck.step.ringsDiffer]
  · simp [hnames]

end BlockGeometry

/-- The call has returned. -/
def AttachPc.returned : AttachPc → Bool
  | .attached | .absent | .timedOut | .threw _ => true
  | _ => false

/-- The steps a call can still take. -/
def AttachPc.rank (g : BlockGeometry) : AttachPc → Nat
  | .idle => g.initialise.length + kAwaitReadyLoads + 8
  | .initialise todo => todo.length
  | .await n => kAwaitReadyLoads - n + 7
  | .check .magic => 6
  | .check .layoutVersion => 5
  | .check .nameCapacity => 4
  | .check .maxNames => 3
  | .check .ringCount => 2
  | .check .ringCapacity => 1
  | _ => 0

theorem HeaderCheck.rank_step (h : ControlHeader) (g : BlockGeometry) (c : HeaderCheck) :
    (c.step h g).rank g < (AttachPc.check c).rank g := by
  cases c <;> simp only [HeaderCheck.step] <;> (repeat' split) <;> simp [AttachPc.rank]

section Guarantees

variable {Party : Type} [DecidableEq Party] {fresh : BlockWords} {creates : Party → Bool}
  {geometry : Party → BlockGeometry}

theorem AttachState.go_rank {s s' : AttachState Party} {p : Party} {create : Bool} {g : BlockGeometry}
    (hs : s.go fresh create g p = some s') : (s'.parties p).rank g < (s.parties p).rank g := by
  unfold AttachState.go at hs
  split at hs
  · rename_i hpc _
    cases hs
    simp only [AttachState.goto, Function.update_self, hpc, AttachPc.rank]
    omega
  · rename_i hpc _
    split at hs
    · cases hs
      simp only [Function.update_self, hpc, AttachPc.rank]
      omega
    · cases hs
      simp [AttachState.goto, hpc, AttachPc.rank]
  · rename_i store todo _ hpc _
    cases hs
    simp only [AttachState.goto, Function.update_self, hpc]
    split
    · simp [AttachPc.rank]
    · simp [AttachPc.rank]
  · rename_i n _ hpc _
    split at hs
    · cases hs
      simp [AttachState.goto, hpc, AttachPc.rank]
    · cases hs
      simp only [AttachState.goto, Function.update_self, hpc]
      split
      · simp only [AttachPc.rank]
        omega
      · simp [AttachPc.rank]
  · rename_i c _ hpc _
    cases hs
    simp only [AttachState.goto, Function.update_self, hpc]
    exact HeaderCheck.rank_step _ _ _
  · cases hs

/-- A step of another party, and a store of one that has the block, leave a party where it is. -/
theorem step_parties {a : AttachAction Party} {s s' : AttachState Party} {p : Party} (ha : a ≠ .go p)
    (hs : (attachSystem fresh creates geometry).step a s = some s') : s'.parties p = s.parties p := by
  cases a with
  | go q =>
      have hpq : p ≠ q := fun h => ha (by rw [h])
      simp only [attachSystem, AttachState.go] at hs
      split at hs
      · cases hs; simp [AttachState.goto, Function.update_of_ne hpq]
      · split at hs <;> cases hs <;> simp [AttachState.goto, Function.update_of_ne hpq]
      · cases hs; simp [AttachState.goto, Function.update_of_ne hpq]
      · split at hs <;> cases hs <;> simp [AttachState.goto, Function.update_of_ne hpq]
      · cases hs; simp [AttachState.goto, Function.update_of_ne hpq]
      · cases hs
  | use q store =>
      simp only [attachSystem, AttachState.use] at hs
      split at hs
      · split at hs
        · cases hs; rfl
        · cases hs
      · cases hs

omit [DecidableEq Party] in
/-- A party that has the block is configured as its creator is, which is done. -/
theorem Making.agrees {c p : Party} {todo : List BlockStore} {s : AttachState Party}
    (h : Making fresh geometry c todo s) (hp : s.parties p = .attached) :
    todo = [] ∧ (geometry c).Agrees (geometry p) := by
  by_cases hpc : p = c
  · subst hpc
    refine ⟨?_, rfl, rfl, fun _ => rfl⟩
    rcases h.stands with ⟨hnil, -⟩ | ⟨-, hinit, -⟩
    · exact hnil
    · rw [hp] at hinit
      cases hinit
  · have hother := h.others p hpc
    rw [hp] at hother
    refine ⟨hother.1, ?_⟩
    have hvalid := hother.2
    rw [BlockGeometry.validates_header] at hvalid
    by_contra hnot
    rw [if_neg hnot] at hvalid
    cases hvalid

/-- A party that can take no step has returned. -/
theorem AttachInv.returned {s : AttachState Party} (h : AttachInv fresh geometry s) {p : Party}
    (hs : s.go fresh (creates p) (geometry p) p = none) : (s.parties p).returned = true := by
  rcases h with h | ⟨c, todo, h⟩
  · rcases h.stands p with hpc | hpc
    · simp only [AttachState.go, hpc, h.segment] at hs
      split at hs <;> cases hs
    · rw [hpc]
      rfl
  · obtain ⟨front, -, hseg⟩ := h.segment
    cases hpc : s.parties p with
    | initialise l =>
        by_cases hp : p = c
        · subst hp
          rcases h.stands with ⟨-, hatt⟩ | ⟨hne, hinit, -⟩
          · rw [hpc] at hatt
            cases hatt
          · rw [hpc] at hinit
            cases hinit
            obtain ⟨store, todo, rfl⟩ := List.exists_cons_of_ne_nil hne
            simp [AttachState.go, hpc, hseg] at hs
        · have := h.others p hp
          rw [hpc] at this
          exact this.elim
    | idle => simp [AttachState.go, hpc, hseg] at hs
    | await n =>
        simp only [AttachState.go, hpc, hseg] at hs
        split at hs <;> cases hs
    | check c' => simp [AttachState.go, hpc, hseg] at hs
    | _ => rfl

/-- From a block that is ready no party times out. -/
theorem Making.go_ready {c p : Party} {s s' : AttachState Party} (h : Making fresh geometry c [] s)
    (hs : s.go fresh (creates p) (geometry p) p = some s') (hpc : s.parties p ≠ .timedOut ∧ s.parties p ≠ .absent) :
    s'.parties p ≠ .timedOut ∧ s'.parties p ≠ .absent := by
  obtain ⟨front, -, hseg⟩ := h.segment
  have hready := (h.sameLayout hseg).2
  cases hp : s.parties p with
  | idle =>
      simp only [AttachState.go, hp, hseg, Option.some.injEq] at hs
      subst hs
      simp [AttachState.goto]
  | await n =>
      simp only [AttachState.go, hp, hseg, hready, if_true, Option.some.injEq] at hs
      subst hs
      simp [AttachState.goto]
  | check c' =>
      simp only [AttachState.go, hp, hseg, Option.some.injEq] at hs
      subst hs
      simp only [AttachState.goto, Function.update_self]
      cases c' <;> simp only [HeaderCheck.step] <;> (repeat' split) <;> simp
  | initialise l =>
      cases l with
      | nil => simp [AttachState.go, hp] at hs
      | cons store todo =>
          simp only [AttachState.go, hp, hseg, Option.some.injEq] at hs
          subst hs
          simp only [AttachState.goto, Function.update_self]
          split <;> simp
  | timedOut => exact absurd hp hpc.1
  | absent => exact absurd hp hpc.2
  | _ => simp [AttachState.go, hp] at hs

end Guarantees

/-! ## Attaching under a creator -/

/-- While the creator is at work no party is past the wait and nothing else is written. A party that has the block has
all of its creator's layout under the stores made since, none of them overwritten, and agrees with the creator; one
that threw does not agree, and its message says in what. -/
theorem attached_block_is_laid_out {Party : Type} [DecidableEq Party] (fresh : BlockWords) (creates : Party → Bool)
    (geometry : Party → BlockGeometry) (hfresh : fresh.initState ≠ kReady) (s : AttachState Party)
    (hs : (attachSystem fresh creates geometry).Reachable s) :
    (∀ c todo, s.parties c = .initialise todo → s.uses = [] ∧ ∀ p, p ≠ c →
      s.parties p = .idle ∨ s.parties p = .absent ∨ s.parties p = .timedOut ∨ ∃ n, s.parties p = .await n) ∧
    (∀ p, s.parties p = .attached → ∃ c base b, s.creator = some c ∧ s.segment = some b ∧
      LaidOut (geometry c) base ∧ b = BlockStore.applyAll base s.uses ∧ b.header = (geometry c).header ∧
      (geometry c).Agrees (geometry p)) ∧
    (∀ p what, s.parties p = .threw what → ∃ c, s.creator = some c ∧ s.parties c = .attached ∧
      ¬ (geometry c).Agrees (geometry p) ∧ what = (geometry c).mismatch (geometry p)) := by
  rcases attachInv_reachable hfresh hs with h | ⟨c, todo, h⟩
  · have hnone : ∀ p pc, s.parties p = pc → pc = .idle ∨ pc = .absent := fun p pc hp => hp ▸ h.stands p
    refine ⟨fun c todo hc => ?_, fun p hp => ?_, fun p what hp => ?_⟩
    · rcases hnone c _ hc with hc | hc <;> cases hc
    · rcases hnone p _ hp with hp | hp <;> cases hp
    · rcases hnone p _ hp with hp | hp <;> cases hp
  · refine ⟨fun c' todo' hc' => ?_, fun p hp => ?_, fun p what hp => ?_⟩
    · -- a party that lays out is the creator
      have hcc : c' = c := by
        by_contra hne
        have := h.others c' hne
        rw [hc'] at this
        exact this
      subst hcc
      rcases h.stands with ⟨-, hatt⟩ | ⟨htodo, -, huses⟩
      · rw [hc'] at hatt
        cases hatt
      · refine ⟨huses, fun p hp => ?_⟩
        have hother := h.others p hp
        cases hpc : s.parties p with
        | idle => exact Or.inl rfl
        | absent => exact Or.inr (Or.inl rfl)
        | timedOut => exact Or.inr (Or.inr (Or.inl rfl))
        | await n => exact Or.inr (Or.inr (Or.inr ⟨n, rfl⟩))
        | initialise l => rw [hpc] at hother; exact hother.elim
        | check c => rw [hpc] at hother; exact absurd hother.1 htodo
        | attached => rw [hpc] at hother; exact absurd hother.1 htodo
        | threw what => rw [hpc] at hother; exact absurd hother.1 htodo
    · obtain ⟨rfl, hagrees⟩ := h.agrees hp
      obtain ⟨front, -, hseg⟩ := h.segment
      obtain ⟨hlaid, hb⟩ := h.laidOut hseg
      exact ⟨c, _, _, h.creator, hseg, hlaid, hb, (h.sameLayout hseg).1, hagrees⟩
    · have hpc : p ≠ c := by
        rintro rfl
        rcases h.stands with ⟨-, hatt⟩ | ⟨-, hinit, -⟩
        · rw [hp] at hatt
          cases hatt
        · rw [hp] at hinit
          cases hinit
      have hother := h.others p hpc
      rw [hp] at hother
      obtain ⟨hdone, hvalid⟩ := hother
      rw [BlockGeometry.validates_header] at hvalid
      have hatt := (h.stands.resolve_right fun hn => hn.1 hdone).2
      by_cases hagrees : (geometry c).Agrees (geometry p)
      · rw [if_pos hagrees] at hvalid
        cases hvalid
      · rw [if_neg hagrees] at hvalid
        exact ⟨c, h.creator, hatt, hagrees, (Except.error.inj hvalid).symm⟩

/-- A segment as the system makes it. -/
def zeroBlock : BlockWords := ⟨⟨0, 0, 0, 0, 0, 0⟩, 0, 0, 0, 0, fun _ => 0, fun _ _ => 0, 0, 0, 0, fun _ => 0, fun _ => 0⟩

/-- Party 0 creates, party 1 agrees with it, party 2 does not. -/
def threePeers (p : Fin 3) : BlockGeometry := if p = 2 then ⟨2, 0, 0⟩ else ⟨1, 0, 0⟩

def threePeersStart : AttachState (Fin 3) := ⟨none, fun _ => .idle, none, []⟩

/-- Party 1 waits while party 0 lays the block out, publishes a name once it has it, and party 2 is refused. -/
def threePeersRun : List (AttachAction (Fin 3)) :=
  [.go 0, .go 0, .go 1, .go 1] ++ List.replicate 12 (.go 0) ++ List.replicate 6 (.go 1) ++ [.use 1 (.key 0 9)] ++
    List.replicate 6 (.go 2)

theorem attached_block_is_laid_out_threePeers :
    ∃ s, (attachSystem zeroBlock (fun _ => true) threePeers).run threePeersRun threePeersStart = some s ∧
      (∃ c base b, s.creator = some c ∧ s.segment = some b ∧ LaidOut (threePeers c) base ∧
        b = BlockStore.applyAll base s.uses ∧ b.header = (threePeers c).header ∧
        (threePeers c).Agrees (threePeers 1)) ∧
      s.parties 2 = .threw (ascii "slick-perfmon: peer configured a different max_names") ∧
      ∃ c, s.creator = some c ∧ s.parties c = .attached ∧ ¬ (threePeers c).Agrees (threePeers 2) ∧
        ascii "slick-perfmon: peer configured a different max_names" = (threePeers c).mismatch (threePeers 2) := by
  refine ⟨_, rfl, ?_⟩
  have hrun : (attachSystem zeroBlock (fun _ => true) threePeers).run threePeersRun threePeersStart = some _ := rfl
  have h := attached_block_is_laid_out zeroBlock (fun _ => true) threePeers (by decide) _
    (.run (.init ⟨rfl, rfl, rfl, fun _ => rfl⟩) hrun)
  exact ⟨h.2.1 1 rfl, rfl, h.2.2 2 _ rfl⟩

theorem Making.ready_run {Party : Type} [DecidableEq Party] {fresh : BlockWords} {creates : Party → Bool}
    {geometry : Party → BlockGeometry} (hfresh : fresh.initState ≠ kReady) {c p : Party} {s s' : AttachState Party}
    (h : Making fresh geometry c [] s) (hp : s.parties p ≠ .timedOut ∧ s.parties p ≠ .absent)
    (hs : (attachSystem fresh creates geometry).Runs s s') :
    Making fresh geometry c [] s' ∧ s'.parties p ≠ .timedOut ∧ s'.parties p ≠ .absent := by
  induction hs with
  | refl => exact ⟨h, hp⟩
  | @step s₁ s₂ a _ hstep ih =>
      obtain ⟨h₁, hp₁⟩ := ih
      refine ⟨?_, ?_⟩
      · cases a with
        | go q =>
            -- a creator that is done takes no step
            have hq : q ≠ c := by
              rintro rfl
              have hatt := (h₁.stands.resolve_right fun hn => hn.1 rfl).2
              simp [attachSystem, AttachState.go, hatt] at hstep
            obtain ⟨todo, h₂⟩ := h₁.go hfresh hstep
            have hatt := (h₁.stands.resolve_right fun hn => hn.1 rfl).2
            have hsame := step_parties (p := c) (by simpa using hq) hstep
            rcases h₂.stands with ⟨rfl, -⟩ | ⟨-, hinit, -⟩
            · exact h₂
            · rw [hsame, hatt] at hinit
              cases hinit
        | use q store => exact h₁.use hstep
      · by_cases ha : a = .go p
        · subst ha
          exact h₁.go_ready hstep hp₁
        · rw [step_parties ha hstep]
          exact hp₁

/-- However the others' steps fall, a call returns after a bounded number of its own, and is never kept from taking
them. One that meets a block that is ready, or is still waiting when it gets ready, returns what the two configurations
say. -/
theorem attach_is_wait_free {Party : Type} [DecidableEq Party] (fresh : BlockWords) (creates : Party → Bool)
    (geometry : Party → BlockGeometry) (hfresh : fresh.initState ≠ kReady) (s₀ s : AttachState Party)
    (as : List (AttachAction Party)) (h₀ : (attachSystem fresh creates geometry).Init s₀)
    (hs : (attachSystem fresh creates geometry).run as s₀ = some s) (p : Party) :
    as.count (.go p) ≤ (geometry p).initialise.length + kAwaitReadyLoads + 8 ∧
    (s.go fresh (creates p) (geometry p) p = none → (s.parties p).returned = true) ∧
    ∀ c s', s.creator = some c → s.parties c = .attached → s.parties p ≠ .timedOut → s.parties p ≠ .absent →
      (attachSystem fresh creates geometry).Runs s s' → (s'.parties p).returned = true →
      s'.parties p = if (geometry c).Agrees (geometry p) then .attached
        else .threw ((geometry c).mismatch (geometry p)) := by
  have hreach : (attachSystem fresh creates geometry).Reachable s := .run (.init h₀) hs
  have hinv := attachInv_reachable hfresh hreach
  refine ⟨?_, hinv.returned, fun c s' hc hatt hout habs hruns hret => ?_⟩
  · have hcount := System.run_count_le (M := attachSystem fresh creates geometry) (a := .go p)
      (fun s => (s.parties p).rank (geometry p)) (fun s s' hstep => AttachState.go_rank hstep)
      (fun b s s' hb hstep => by rw [step_parties hb hstep]) hs
    have hidle : (s₀.parties p).rank (geometry p) = (geometry p).initialise.length + kAwaitReadyLoads + 8 := by
      rw [h₀.2.2.2 p]
      rfl
    omega
  · rcases hinv with h | ⟨c', todo, h⟩
    · rw [h.creator] at hc
      cases hc
    · obtain rfl : c' = c := Option.some.inj (h.creator.symm.trans hc)
      rcases h.stands with ⟨rfl, -⟩ | ⟨-, hinit, -⟩
      · obtain ⟨h', hout', habs'⟩ := h.ready_run hfresh ⟨hout, habs⟩ hruns
        by_cases hp : p = c'
        · subst hp
          rw [if_pos ⟨rfl, rfl, fun _ => rfl⟩]
          exact (h'.stands.resolve_right fun hn => hn.1 rfl).2
        · have hother := h'.others p hp
          cases hpc : s'.parties p with
          | attached =>
              rw [hpc, PartyInv, BlockGeometry.validates_header] at hother
              by_cases hagrees : (geometry c').Agrees (geometry p)
              · rw [if_pos hagrees]
              · rw [if_neg hagrees] at hother
                cases hother.2
          | threw what =>
              rw [hpc, PartyInv, BlockGeometry.validates_header] at hother
              by_cases hagrees : (geometry c').Agrees (geometry p)
              · rw [if_pos hagrees] at hother
                cases hother.2
              · rw [if_neg hagrees] at hother ⊢
                rw [Except.error.inj hother.2]
          | timedOut => exact absurd hpc hout'
          | absent => exact absurd hpc habs'
          | _ => rw [hpc] at hret; cases hret
      · rw [hatt] at hinit
        cases hinit

theorem attach_is_wait_free_threePeers :
    ∃ s, (attachSystem zeroBlock (fun _ => true) threePeers).run threePeersRun threePeersStart = some s ∧
      threePeersRun.count (.go 2) ≤ (threePeers 2).initialise.length + kAwaitReadyLoads + 8 ∧
      s.parties 2 = if (threePeers 0).Agrees (threePeers 2) then .attached
        else .threw ((threePeers 0).mismatch (threePeers 2)) := by
  refine ⟨_, rfl, ?_⟩
  have h := attach_is_wait_free zeroBlock (fun _ => true) threePeers (by decide) threePeersStart _ threePeersRun
    ⟨rfl, rfl, rfl, fun _ => rfl⟩ rfl 2
  exact ⟨h.1, h.2.2 0 _ rfl rfl (by decide) (by decide) .refl rfl⟩

end SlickPerfmon
