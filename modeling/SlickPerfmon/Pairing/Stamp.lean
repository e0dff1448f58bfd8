import Mathlib.Data.UInt
import Mathlib.Data.Nat.Bitwise

/-!
# The record and its keys

`stamp_types.hpp` and the key functions of `pairing.hpp`. A `Sample` is a stamp or a value sample, told apart
by the step in its event word.
-/

namespace SlickPerfmon

def kBeginStep : UInt8 := 0x00
def kEndStep : UInt8 := 0xFF
/-- Marks a value sample; not a boundary in any span. -/
def kValueStep : UInt8 := 0xFE
def kMaxSpanStep : UInt8 := 0xFD
def kMaxSeq : UInt32 := 0x00FFFFFF

def makeEvent (step : UInt8) (seq : UInt32) : UInt32 := ((seq &&& kMaxSeq) <<< 8) ||| step.toUInt32

def stepOf (e : UInt32) : UInt8 := (e &&& 0xFF).toUInt8

def seqOf (e : UInt32) : UInt32 := e >>> 8

def isValueEvent (e : UInt32) : Bool := stepOf e == kValueStep

structure Sample where
  timestamp : UInt64
  point : UInt32
  event : UInt32
deriving DecidableEq, Repr, Inhabited

namespace Sample

def step (s : Sample) : UInt8 := stepOf s.event
def seq (s : Sample) : UInt32 := seqOf s.event

/-- Begin, step or end: everything but a value sample. -/
def isStamp (s : Sample) : Bool := !isValueEvent s.event

end Sample

/-! ## Keys -/

def stageKey (p : UInt32) (fromStep toStep : UInt8) : UInt64 :=
  (p.toUInt64 <<< 16) ||| (fromStep.toUInt32 <<< 8).toUInt64 ||| toStep.toUInt64

def isValueStage (fromStep toStep : UInt8) : Bool := fromStep == kValueStep && toStep == kValueStep

def spanKey (p seq : UInt32) : UInt64 := (p.toUInt64 <<< 32) ||| (seq &&& kMaxSeq).toUInt64

def spanPoint (key : UInt64) : UInt32 := (key >>> 32).toUInt32

/-- The key of the span a stamp belongs to. -/
def Sample.key (s : Sample) : UInt64 := spanKey s.point s.seq

/-! ## The keys tell everything apart -/

theorem or_eq_add {a b k : Nat} (h : b < 2 ^ k) : a <<< k ||| b = a * 2 ^ k + b := by
  rw [← Nat.shiftLeft_add_eq_or_of_lt h, Nat.shiftLeft_eq]

theorem seqOf_toNat_lt (e : UInt32) : (seqOf e).toNat < 2 ^ 24 := by
  have := e.toNat_lt
  simp only [seqOf, UInt32.toNat_shiftRight, UInt32.reduceToNat, Nat.reduceMod, Nat.shiftRight_eq_div_pow]
  omega

theorem and_kMaxSeq {q : UInt32} (h : q.toNat < 2 ^ 24) : q &&& kMaxSeq = q := by
  apply UInt32.toNat_inj.mp
  rw [UInt32.toNat_and, show kMaxSeq.toNat = 2 ^ 24 - 1 from rfl, Nat.and_two_pow_sub_one_eq_mod,
    Nat.mod_eq_of_lt h]

theorem spanKey_toNat {p q : UInt32} (h : q.toNat < 2 ^ 24) :
    (spanKey p q).toNat = p.toNat * 2 ^ 32 + q.toNat := by
  have hp := p.toNat_lt
  simp only [spanKey, and_kMaxSeq h, UInt64.toNat_or, UInt64.toNat_shiftLeft, UInt32.toNat_toUInt64]
  have hlt : p.toNat <<< 32 < 2 ^ 64 := by rw [Nat.shiftLeft_eq]; omega
  rw [show (32 : UInt64).toNat % 64 = 32 from rfl, Nat.mod_eq_of_lt hlt, or_eq_add (by omega)]

theorem spanKey_inj {p q p' q' : UInt32} (h : q.toNat < 2 ^ 24) (h' : q'.toNat < 2 ^ 24)
    (he : spanKey p q = spanKey p' q') : p = p' ∧ q = q' := by
  have hn := congrArg UInt64.toNat he
  rw [spanKey_toNat h, spanKey_toNat h'] at hn
  exact ⟨UInt32.toNat_inj.mp (by omega), UInt32.toNat_inj.mp (by omega)⟩

theorem spanPoint_spanKey {p q : UInt32} (h : q.toNat < 2 ^ 24) : spanPoint (spanKey p q) = p := by
  apply UInt32.toNat_inj.mp
  have hp := p.toNat_lt
  simp only [spanPoint, UInt64.toNat_toUInt32, UInt64.toNat_shiftRight, spanKey_toNat h,
    UInt64.reduceToNat, Nat.reduceMod, Nat.shiftRight_eq_div_pow]
  omega

theorem stageKey_toNat (p : UInt32) (f t : UInt8) :
    (stageKey p f t).toNat = p.toNat * 2 ^ 16 + f.toNat * 2 ^ 8 + t.toNat := by
  have hp := p.toNat_lt
  have hf := f.toNat_lt
  have ht := t.toNat_lt
  have hp16 : p.toNat <<< 16 < 2 ^ 64 := by rw [Nat.shiftLeft_eq]; omega
  have hf8 : f.toNat <<< 8 < 2 ^ 32 := by rw [Nat.shiftLeft_eq]; omega
  have hlow : f.toNat <<< 8 ||| t.toNat = f.toNat * 2 ^ 8 + t.toNat := or_eq_add (by omega)
  simp only [stageKey, UInt64.toNat_or, UInt64.toNat_shiftLeft, UInt32.toNat_toUInt64,
    UInt32.toNat_shiftLeft, UInt8.toNat_toUInt32, UInt8.toNat_toUInt64]
  rw [show (16 : UInt64).toNat % 64 = 16 from rfl, show (8 : UInt32).toNat % 32 = 8 from rfl,
    Nat.mod_eq_of_lt hp16, Nat.mod_eq_of_lt hf8, Nat.or_assoc, hlow, or_eq_add (by omega)]
  omega

theorem stageKey_inj {p p' : UInt32} {f t f' t' : UInt8} (he : stageKey p f t = stageKey p' f' t') :
    p = p' ∧ f = f' ∧ t = t' := by
  have hn := congrArg UInt64.toNat he
  rw [stageKey_toNat, stageKey_toNat] at hn
  have hf := f.toNat_lt
  have ht := t.toNat_lt
  have hf' := f'.toNat_lt
  have ht' := t'.toNat_lt
  exact ⟨UInt32.toNat_inj.mp (by omega), UInt8.toNat_inj.mp (by omega), UInt8.toNat_inj.mp (by omega)⟩

theorem toUInt64_inj {p p' : UInt32} (he : p.toUInt64 = p'.toUInt64) : p = p' := by
  have hn := congrArg UInt64.toNat he
  simpa [UInt32.toNat_inj] using hn

theorem makeEvent_toNat {step : UInt8} {q : UInt32} (h : q.toNat < 2 ^ 24) :
    (makeEvent step q).toNat = q.toNat * 2 ^ 8 + step.toNat := by
  have hstep := step.toNat_lt
  simp only [makeEvent, and_kMaxSeq h, UInt32.toNat_or, UInt32.toNat_shiftLeft, UInt8.toNat_toUInt32]
  have hlt : q.toNat <<< 8 < 2 ^ 32 := by rw [Nat.shiftLeft_eq]; omega
  rw [show (8 : UInt32).toNat % 32 = 8 from rfl, Nat.mod_eq_of_lt hlt, or_eq_add (by omega)]

theorem stepOf_makeEvent {step : UInt8} {q : UInt32} (h : q.toNat < 2 ^ 24) : stepOf (makeEvent step q) = step := by
  apply UInt8.toNat_inj.mp
  have hstep := step.toNat_lt
  simp only [stepOf, UInt32.toNat_toUInt8, UInt32.toNat_and, makeEvent_toNat h]
  rw [show (0xFF : UInt32).toNat = 2 ^ 8 - 1 from rfl, Nat.and_two_pow_sub_one_eq_mod]
  omega

theorem seqOf_makeEvent {step : UInt8} {q : UInt32} (h : q.toNat < 2 ^ 24) : seqOf (makeEvent step q) = q := by
  apply UInt32.toNat_inj.mp
  have hstep := step.toNat_lt
  simp only [seqOf, UInt32.toNat_shiftRight, UInt32.reduceToNat, Nat.reduceMod, Nat.shiftRight_eq_div_pow,
    makeEvent_toNat h]
  omega

theorem Sample.seq_lt (s : Sample) : s.seq.toNat < 2 ^ 24 := seqOf_toNat_lt s.event

end SlickPerfmon
