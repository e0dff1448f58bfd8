import SlickPerfmon.Library.TransitionSystem
import SlickPerfmon.Pairing.Stamp

/-!
# The name table of the control block

`publish_one`, `await_claim` and `lookup` as processes over one table of slots, at the grain of single loads,
compare-exchanges and bytes. A process that stops taking steps is a publisher that was preempted or died.
-/

namespace SlickPerfmon

open Library

def kClaimBit : UInt64 := (1 : UInt64) <<< 63

def isClaimed (slot : UInt64) : Bool := (slot &&& kClaimBit) != 0

/-- The key a slot belongs to, whether claimed or published. Zero is free. -/
def keyOf (slot : UInt64) : UInt64 := slot &&& ~~~kClaimBit

/-- Key under which a (point, step) name is published. -/
def nameKey (p : UInt32) (step : UInt8) : UInt64 := (p.toUInt64 <<< 8) ||| step.toUInt64

/-- The loads that `await_claim` makes before the last one. -/
def kAwaitLoads : Nat := 1000

/-- The arguments of one call of `publish_one`: a NUL-free name shorter than SLICK_PERFMON_NAME_CAPACITY. -/
structure Publication (nameCapacity : Nat) where
  point : UInt32
  step : UInt8
  name : List UInt8
  nulFree : 0 ∉ name
  short : name.length < nameCapacity

def Publication.want {n : Nat} (c : Publication n) : UInt64 := nameKey c.point c.step + 1

/-- Where a call of `publish_one` stands: before the load of slot `i`, in `await_claim` after `n` of its loads
(`lost` when it waits after a lost race), before the CAS, writing byte `j` of the name, before the key store,
before the generation bump, or reading a name to compare it. -/
inductive PublishPc
  | idle
  | load (i : Nat)
  | await (i n : Nat) (lost : Bool)
  | cas (i : Nat)
  | write (i j : Nat)
  | store (i : Nat)
  | bump (i : Nat)
  | compare (i : Nat) (read : List UInt8)
  | done (result : Bool)
deriving DecidableEq, Repr

inductive LookupPc
  | idle
  | load (i : Nat)
  | read (i : Nat) (read : List UInt8)
  | done (result : List UInt8)
deriving DecidableEq, Repr

section Model

variable {nameCapacity : Nat} {Caller Reader : Type}

/-- `claimant` records whose CAS took the slot. -/
structure NameSlot (Caller : Type) where
  keyPlusOne : UInt64
  name : Nat → UInt8
  claimant : Option Caller

structure NameState (Caller Reader : Type) where
  slots : Nat → NameSlot Caller
  generation : Nat
  publishers : Caller → PublishPc
  lookups : Reader → LookupPc

inductive NameAction (Caller Reader : Type)
  | publish (p : Caller)
  | lookup (q : Reader)

variable [DecidableEq Caller] [DecidableEq Reader] (maxNames : Nat)

/-- What follows from the value `cur` read from slot `i`, by the load at the top of the loop or after a lost
race. -/
def resolve (want cur : UInt64) (i : Nat) (lost : Bool) : PublishPc :=
  if keyOf cur = want then if isClaimed cur then .done false else .compare i []
  else if lost then .load (i + 1)
  else if cur ≠ 0 then .load (i + 1)
  else .cas i

/-- A value just loaded: a claim on our own key is waited for. -/
def examine (want cur : UInt64) (i : Nat) (lost : Bool) : PublishPc :=
  if isClaimed cur ∧ keyOf cur = want then .await i 0 lost else resolve want cur i lost

namespace NameState

def setPublisher (s : NameState Caller Reader) (p : Caller) (pc : PublishPc) : NameState Caller Reader :=
  { s with publishers := Function.update s.publishers p pc }

def setSlot (s : NameState Caller Reader) (i : Nat) (slot : NameSlot Caller) : NameState Caller Reader :=
  { s with slots := Function.update s.slots i slot }

/-- The next step of the call `p`, which publishes `c`. -/
def publishStep (c : Publication nameCapacity) (s : NameState Caller Reader) (p : Caller) :
    Option (NameState Caller Reader) :=
  match s.publishers p with
  | .idle => some (s.setPublisher p (.load 0))
  | .load i =>
      if i < maxNames then some (s.setPublisher p (examine c.want (s.slots i).keyPlusOne i false))
      else some (s.setPublisher p (.done false))
  | .await i n lost =>
      let k := (s.slots i).keyPlusOne
      if n < kAwaitLoads ∧ isClaimed k then some (s.setPublisher p (.await i (n + 1) lost))
      else some (s.setPublisher p (resolve c.want k i lost))
  | .cas i =>
      let slot := s.slots i
      if slot.keyPlusOne = 0 then
        some ((s.setSlot i ⟨c.want ||| kClaimBit, slot.name, some p⟩).setPublisher p (.write i 0))
      else some (s.setPublisher p (examine c.want slot.keyPlusOne i true))
  | .write i j =>
      let slot := s.slots i
      if h : j < c.name.length then
        some ((s.setSlot i { slot with name := Function.update slot.name j c.name[j] }).setPublisher p
          (.write i (j + 1)))
      else
        some ((s.setSlot i { slot with name := Function.update slot.name c.name.length 0 }).setPublisher p
          (.store i))
  | .store i =>
      some ((s.setSlot i { s.slots i with keyPlusOne := c.want }).setPublisher p (.bump i))
  | .bump _ => some { s.setPublisher p (.done true) with generation := s.generation + 1 }
  | .compare i read =>
      let b := (s.slots i).name read.length
      if b = 0 then some (s.setPublisher p (.done (read = c.name)))
      else some (s.setPublisher p (.compare i (read ++ [b])))
  | .done _ => none

/-- The next step of the lookup `q` of the key `want - 1`. -/
def lookupStep (want : UInt64) (s : NameState Caller Reader) (q : Reader) :
    Option (NameState Caller Reader) :=
  let goto := fun pc => some { s with lookups := Function.update s.lookups q pc }
  match s.lookups q with
  | .idle => goto (.load 0)
  | .load i =>
      if i < maxNames then
        let k := (s.slots i).keyPlusOne
        if k = 0 ∨ isClaimed k then goto (.load (i + 1))
        else if k = want then goto (.read i [])
        else goto (.load (i + 1))
      else goto (.done [])
  | .read i read =>
      let b := (s.slots i).name read.length
      if b = 0 then goto (.done read) else goto (.read i (read ++ [b]))
  | .done _ => none

end NameState

/-- Every interleaving of the calls `publications` and of lookups of the keys `wanted`, on a fresh table. -/
def nameSystem (publications : Caller → Publication nameCapacity) (wanted : Reader → UInt32 × UInt8) :
    System (NameState Caller Reader) (NameAction Caller Reader) where
  Init s := (∀ i, (s.slots i).keyPlusOne = 0 ∧ (s.slots i).claimant = none) ∧
    (∀ p, s.publishers p = .idle) ∧ ∀ q, s.lookups q = .idle
  step a s :=
    match a with
    | .publish p => s.publishStep maxNames (publications p) p
    | .lookup q => s.lookupStep maxNames (nameKey (wanted q).1 (wanted q).2 + 1) q

end Model

/-! ## Words -/

theorem nameKey_toNat (p : UInt32) (step : UInt8) : (nameKey p step).toNat = p.toNat * 2 ^ 8 + step.toNat := by
  have hp := p.toNat_lt
  have hs := step.toNat_lt
  have hlt : p.toNat <<< 8 < 2 ^ 64 := by rw [Nat.shiftLeft_eq]; omega
  simp only [nameKey, UInt64.toNat_or, UInt64.toNat_shiftLeft, UInt32.toNat_toUInt64, UInt8.toNat_toUInt64]
  rw [show (8 : UInt64).toNat % 64 = 8 from rfl, Nat.mod_eq_of_lt hlt, or_eq_add (by omega)]

theorem nameKey_succ_toNat (p : UInt32) (step : UInt8) :
    (nameKey p step + 1).toNat = p.toNat * 2 ^ 8 + step.toNat + 1 := by
  have hp := p.toNat_lt
  have hs := step.toNat_lt
  rw [UInt64.toNat_add, nameKey_toNat, show (1 : UInt64).toNat = 1 from rfl, Nat.mod_eq_of_lt (by omega)]

theorem nameKey_succ_inj {p p' : UInt32} {step step' : UInt8} (h : nameKey p step + 1 = nameKey p' step' + 1) :
    p = p' ∧ step = step' := by
  have hn := congrArg UInt64.toNat h
  rw [nameKey_succ_toNat, nameKey_succ_toNat] at hn
  have hs := step.toNat_lt
  have hs' := step'.toNat_lt
  exact ⟨UInt32.toNat_inj.mp (by omega), UInt8.toNat_inj.mp (by omega)⟩

/-- A word a key can have: not zero, and clear of the claim tag. -/
structure IsWant (w : UInt64) : Prop where
  pos : w ≠ 0
  keyOf : keyOf w = w
  keyOf_claim : SlickPerfmon.keyOf (w ||| kClaimBit) = w
  free : isClaimed w = false
  claimed : isClaimed (w ||| kClaimBit) = true
  claim_pos : w ||| kClaimBit ≠ 0

theorem isWant_nameKey (p : UInt32) (step : UInt8) : IsWant (nameKey p step + 1) := by
  have hp := p.toNat_lt
  have hs := step.toNat_lt
  have hn := nameKey_succ_toNat p step
  set w := nameKey p step + 1 with hw
  have hlt : w.toNat < 2 ^ 63 := by omega
  have hmask : (~~~kClaimBit).toNat = 2 ^ 63 - 1 := by decide
  have hbit : kClaimBit.toNat = 2 ^ 63 := by decide
  have hkey : w &&& ~~~kClaimBit = w := by
    apply UInt64.toNat_inj.mp
    rw [UInt64.toNat_and, hmask, Nat.and_two_pow_sub_one_eq_mod, Nat.mod_eq_of_lt hlt]
  have hand : w &&& kClaimBit = 0 := by
    apply UInt64.toNat_inj.mp
    rw [UInt64.toNat_and, hbit, Nat.and_two_pow, Nat.testBit_lt_two_pow hlt]
    rfl
  have hpos : w ≠ 0 := by
    intro h0
    rw [h0] at hn
    simp at hn
  have htag : (w ||| kClaimBit) &&& kClaimBit = kClaimBit := by
    apply UInt64.toNat_inj.mp
    rw [UInt64.toNat_and, UInt64.toNat_or]
    apply Nat.eq_of_testBit_eq
    intro i
    simp only [Nat.testBit_and, Nat.testBit_or]
    cases w.toNat.testBit i <;> cases kClaimBit.toNat.testBit i <;> rfl
  exact
    { pos := hpos
      keyOf := hkey
      keyOf_claim := by
        apply UInt64.toNat_inj.mp
        rw [SlickPerfmon.keyOf, UInt64.toNat_and, UInt64.toNat_or, hmask, hbit, Nat.and_two_pow_sub_one_eq_mod]
        rw [Nat.or_mod_two_pow, Nat.mod_self, Nat.or_zero, Nat.mod_eq_of_lt hlt]
      free := by rw [isClaimed, hand]; rfl
      claimed := by rw [isClaimed, htag]; decide
      claim_pos := by
        intro h0
        rw [h0] at htag
        exact absurd htag (by decide) }

end SlickPerfmon
