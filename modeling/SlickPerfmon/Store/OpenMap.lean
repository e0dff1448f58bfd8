import SlickPerfmon.Library.CyclicProbe
import Mathlib.Algebra.Group.Nat.Defs

/-!
# `detail::open_map`

The fixed-capacity map from 64-bit keys that holds open spans, stages and per-point counters. The three
vectors `keys_`, `used_` and `vals_` are one function from slots to entries: an unused slot is `none`, and
what an unused slot still holds in `keys_` and `vals_` is never read. Pointers into `vals_` appear as the value
they point at, and writes through them as `modify`.
-/

namespace SlickPerfmon

open Library

/-- splitmix64 finalizer. -/
def mix64 (x : UInt64) : UInt64 :=
  let x := x + 0x9E3779B97F4A7C15
  let x := (x ^^^ (x >>> 30)) * 0xBF58476D1CE4E5B9
  let x := (x ^^^ (x >>> 27)) * 0x94D049BB133111EB
  x ^^^ (x >>> 31)

def nextPow2 (v : UInt64) : UInt64 :=
  if v < 2 then 2
  else
    let v := v - 1
    let v := v ||| (v >>> 1)
    let v := v ||| (v >>> 2)
    let v := v ||| (v >>> 4)
    let v := v ||| (v >>> 8)
    let v := v ||| (v >>> 16)
    let v := v ||| (v >>> 32)
    v + 1

/-- `cap` is `used_.size()`; it is 0 before the first `reset`. -/
structure OpenMap (V : Type) where
  slots : Nat → Option (UInt64 × V)
  cap : Nat
  size : Nat
  maxEntries : Nat

namespace OpenMap

variable {V : Type}

def mask (m : OpenMap V) : Nat := m.cap - 1

def reset (maxEntries : UInt32) : OpenMap V :=
  let max := if maxEntries = 0 then 1 else maxEntries
  { slots := fun _ => none
    cap := (nextPow2 (max.toUInt64 * 2)).toNat
    size := 0
    maxEntries := max.toNat }

def full (m : OpenMap V) : Bool := m.maxEntries ≤ m.size

def home (m : OpenMap V) (key : UInt64) : Nat := (mix64 key).toNat &&& m.mask

/-- Cyclic distance from `a` to `b`, computed with wrapping 64-bit subtraction. -/
def dist (m : OpenMap V) (a b : Nat) : Nat := (b + 2 ^ 64 - a) &&& m.mask

/-! ## Probing -/

/-- The loop condition `used_[i] && keys_[i] != key`, negated. -/
def stopAt (m : OpenMap V) (key : UInt64) (i : Nat) : Bool :=
  match m.slots i with
  | none => true
  | some (k, _) => k == key

/-- The slot at which the probe loop shared by `find`, `insert` and `erase` ends. -/
def probe (m : OpenMap V) (key : UInt64) : Option Nat :=
  if m.cap = 0 then none
  else firstStop (fun i => (i + 1) &&& m.mask) (m.stopAt key) m.cap (m.home key)

def find (m : OpenMap V) (key : UInt64) : Option V :=
  match m.probe key with
  | some i => (m.slots i).map Prod.snd
  | none => none

/-- A write through the pointer that `find` or `insert` returned for `key`. -/
def modify (m : OpenMap V) (key : UInt64) (f : V → V) : OpenMap V :=
  match m.probe key with
  | some i => { m with slots := Function.update m.slots i ((m.slots i).map fun e => (e.1, f e.2)) }
  | none => m

/-- The returned value is the one the returned pointer designates, `none` for `nullptr`. -/
def insert (m : OpenMap V) (key : UInt64) (value : V) : OpenMap V × Option V :=
  match m.probe key with
  | none => (m, none)
  | some i =>
      match m.slots i with
      | some (_, v) => (m, some v)
      | none =>
          if m.full then (m, none)
          else
            ({ m with slots := Function.update m.slots i (some (key, value)), size := m.size + 1 },
              some value)

/-! ## Deletion -/

/-- The two nested loops of `erase_at` as one: `i` is the hole, `j` the slot looked at last. `none` when the
fuel runs out. -/
def eraseLoop (m : OpenMap V) :
    Nat → (Nat → Option (UInt64 × V)) → Nat → Nat → Option (Nat → Option (UInt64 × V))
  | 0, _, _, _ => none
  | fuel + 1, slots, i, j =>
      let j := (j + 1) &&& m.mask
      match slots j with
      | none => some slots
      | some (key, v) =>
          let k := m.home key
          -- the entry at j may fill i only if i lies within its probe run
          if m.dist k i ≤ m.dist k j then
            eraseLoop m fuel (Function.update (Function.update slots i (some (key, v))) j none) j j
          else eraseLoop m fuel slots i j

def eraseAt (m : OpenMap V) (i : Nat) : OpenMap V :=
  match m.eraseLoop m.cap (Function.update m.slots i none) i i with
  | some slots => { m with slots := slots }
  | none => m

/-- `erase_at(i); --size_;` -/
def remove (m : OpenMap V) (i : Nat) : OpenMap V :=
  { m.eraseAt i with size := m.size - 1 }

def erase (m : OpenMap V) (key : UInt64) : OpenMap V × Bool :=
  match m.probe key with
  | none => (m, false)
  | some i =>
      match m.slots i with
      | none => (m, false)
      | some _ => (m.remove i, true)

/-- What `for_each` visits, in its order. -/
def entries (m : OpenMap V) : List (UInt64 × V) := contents m.cap m.slots

/-- `for_each` with a function that only writes the value it is given. -/
def forEach (m : OpenMap V) (f : UInt64 → V → V) : OpenMap V :=
  { m with slots := fun i => (m.slots i).map fun e => (e.1, f e.1 e.2) }

/-- The scan of `erase_if`; the predicate carries the state its side effects act on. -/
def eraseIfLoop {σ : Type} (pred : σ → UInt64 → V → Bool × σ) :
    Nat → Nat → OpenMap V → σ → Nat → Option (OpenMap V × σ × Nat)
  | 0, _, _, _, _ => none
  | fuel + 1, i, m, s, removed =>
      if m.cap ≤ i then some (m, s, removed)
      else
        match m.slots i with
        | none => eraseIfLoop pred fuel (i + 1) m s removed
        | some (key, v) =>
            match pred s key v with
            | (true, s') => eraseIfLoop pred fuel i (m.remove i) s' (removed + 1)
            | (false, s') => eraseIfLoop pred fuel (i + 1) m s' removed

def eraseIf {σ : Type} (pred : σ → UInt64 → V → Bool × σ) (m : OpenMap V) (s : σ) :
    OpenMap V × σ × Nat :=
  (eraseIfLoop pred (m.cap + m.size + 1) 0 m s 0).getD (m, s, 0)

def clear (m : OpenMap V) : OpenMap V := { m with slots := fun _ => none, size := 0 }

end OpenMap

end SlickPerfmon
