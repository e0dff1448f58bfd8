import SlickPerfmon.Pairing.Pairer
import Mathlib.Data.Rat.Defs

/-!
# `Histogram` and `Accumulator`

The accumulator the repository ships, as an instance of what the pairer asks of one. The doubles are exact
rationals, the bucket counts natural numbers; the bucket of a value is computed at the source's widths.
-/

namespace SlickPerfmon

/-- floor(log2(v)) for v >= 1. -/
def floorLog2 (v : UInt64) : UInt32 := UInt32.ofNat v.toNat.log2

/-- `kPrecision` is SLICK_PERFMON_HIST_PRECISION. -/
structure Histogram (kPrecision : UInt32) where
  counts : UInt32 → Nat
  total : Nat
  usedLo : UInt32
  usedHi : UInt32

namespace Histogram

variable {kPrecision : UInt32}

def kSubBuckets (kPrecision : UInt32) : UInt32 := 1 <<< kPrecision

def kBucketCount (kPrecision : UInt32) : UInt32 := (64 - kPrecision + 1) * kSubBuckets kPrecision

def indexOf (kPrecision : UInt32) (value : UInt64) : UInt32 :=
  if value < (kSubBuckets kPrecision).toUInt64 then value.toUInt32
  else
    let exp := floorLog2 value
    let shift := exp - kPrecision
    let sub := (value >>> shift.toUInt64).toUInt32 - kSubBuckets kPrecision
    ((exp - kPrecision + 1) <<< kPrecision) + sub

def empty : Histogram kPrecision := ⟨fun _ => 0, 0, kBucketCount kPrecision, 0⟩

def add (h : Histogram kPrecision) (value : UInt64) : Histogram kPrecision :=
  let i := indexOf kPrecision value
  { counts := Function.update h.counts i (h.counts i + 1)
    total := h.total + 1
    usedLo := if i < h.usedLo then i else h.usedLo
    usedHi := if i > h.usedHi then i else h.usedHi }

/-- Only the occupied band is zeroed. -/
def clear (h : Histogram kPrecision) : Histogram kPrecision :=
  { counts := fun i => if h.usedLo ≤ i ∧ i ≤ h.usedHi then 0 else h.counts i
    total := 0
    usedLo := kBucketCount kPrecision
    usedHi := 0 }

/-- `h.merge(other)`. -/
def merge (h other : Histogram kPrecision) : Histogram kPrecision :=
  if other.total = 0 then h
  else
    { counts := fun i =>
        if other.usedLo ≤ i ∧ i ≤ other.usedHi then h.counts i + other.counts i else h.counts i
      total := h.total + other.total
      usedLo := if other.usedLo < h.usedLo then other.usedLo else h.usedLo
      usedHi := if other.usedHi > h.usedHi then other.usedHi else h.usedHi }

end Histogram

structure Accumulator (kPrecision : UInt32) where
  count : Nat
  min : UInt64
  max : UInt64
  sum : Rat
  mean : Rat
  m2 : Rat
  hist : Histogram kPrecision

namespace Accumulator

variable {kPrecision : UInt32}

def kMaxValue : UInt64 := 0xFFFFFFFFFFFFFFFF

def empty : Accumulator kPrecision := ⟨0, kMaxValue, 0, 0, 0, 0, .empty⟩

def add (a : Accumulator kPrecision) (value : UInt64) : Accumulator kPrecision :=
  let count := a.count + 1
  let x : Rat := value.toNat
  let delta := x - a.mean
  let mean := a.mean + delta / count
  { count := count
    min := if value < a.min then value else a.min
    max := if value > a.max then value else a.max
    sum := a.sum + x
    mean := mean
    m2 := a.m2 + delta * (x - mean)
    hist := a.hist.add value }

def clear (a : Accumulator kPrecision) : Accumulator kPrecision :=
  ⟨0, kMaxValue, 0, 0, 0, 0, a.hist.clear⟩

/-- `a.merge_into(dst)`, with the new `dst` as its value. -/
def mergeInto (a dst : Accumulator kPrecision) : Accumulator kPrecision :=
  if a.count = 0 then dst
  else
    let n : Rat := dst.count + a.count
    let delta := a.mean - dst.mean
    { count := dst.count + a.count
      min := if dst.count = 0 then a.min else if a.min < dst.min then a.min else dst.min
      max := if dst.count = 0 then a.max else if a.max > dst.max then a.max else dst.max
      sum := dst.sum + a.sum
      mean := dst.mean + delta * a.count / n
      m2 := dst.m2 + (a.m2 + delta * delta * dst.count * a.count / n)
      hist := dst.hist.merge a.hist }

end Accumulator

instance (kPrecision : UInt32) : Accum (Accumulator kPrecision) where
  empty := .empty
  add := .add
  clear := .clear
  mergeInto := .mergeInto
  count := Accumulator.count

end SlickPerfmon
