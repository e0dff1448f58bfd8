import SlickPerfmon.Store.OpenMap
import Mathlib.Data.Nat.Bitwise
import Mathlib.Data.Nat.Log

/-!
# The table size is a power of two

`nextPow2` smears the highest set bit downwards and adds one. The smearing is followed bit by bit: after the
shifts 1, 2, 4, 8, 16 and 32, bit `i` says whether any bit from `i` to `i + 63` was set.
-/

namespace SlickPerfmon

/-- Bit `i` of `x` says whether `w` has a bit set among the `d` bits from `i` on. -/
def SmearedBy (w d x : Nat) : Prop :=
  ∀ i, x.testBit i = true ↔ ∃ j, j < d ∧ w.testBit (i + j) = true

theorem SmearedBy.refl (w : Nat) : SmearedBy w 1 w := by
  intro i
  constructor
  · intro h; exact ⟨0, by omega, by simpa using h⟩
  · rintro ⟨j, hj, h⟩
    obtain rfl : j = 0 := by omega
    simpa using h

theorem SmearedBy.double {w d x : Nat} (h : SmearedBy w d x) :
    SmearedBy w (d + d) (x ||| x >>> d) := by
  intro i
  rw [Nat.testBit_or, Nat.testBit_shiftRight, Bool.or_eq_true, h i, Nat.add_comm d i, h (i + d)]
  constructor
  · rintro (⟨j, hj, hb⟩ | ⟨j, hj, hb⟩)
    · exact ⟨j, by omega, hb⟩
    · exact ⟨d + j, by omega, by rwa [← Nat.add_assoc]⟩
  · rintro ⟨j, hj, hb⟩
    by_cases hjd : j < d
    · exact Or.inl ⟨j, hjd, hb⟩
    · exact Or.inr ⟨j - d, by omega, by rwa [show i + d + (j - d) = i + j by omega]⟩

/-- Smeared over all 64 bits, a positive word is one below a power of two. -/
theorem SmearedBy.eq_pred_pow {w x : Nat} (h : SmearedBy w 64 x) (hw : w < 2 ^ 64) (hpos : 0 < w) :
    x = 2 ^ (w.log2 + 1) - 1 := by
  have hlog : w.log2 < 64 := (Nat.log2_lt (by omega)).mpr hw
  have htop : w.testBit w.log2 = true := Nat.testBit_log2 (by omega)
  refine Nat.eq_of_testBit_eq fun i => ?_
  rw [Nat.testBit_two_pow_sub_one, Bool.eq_iff_iff, h i, decide_eq_true_iff]
  constructor
  · rintro ⟨j, _, hb⟩
    by_contra hi
    have : w < 2 ^ (i + j) := Nat.lt_of_lt_of_le Nat.lt_log2_self (Nat.pow_le_pow_right (by omega) (by omega))
    rw [Nat.testBit_lt_two_pow this] at hb
    cases hb
  · intro hi
    exact ⟨w.log2 - i, by omega, by rw [show i + (w.log2 - i) = w.log2 by omega]; exact htop⟩

theorem nextPow2_toNat {v : UInt64} (hv : 2 ≤ v.toNat) :
    (nextPow2 v).toNat = 2 ^ ((v.toNat - 1).log2 + 1) % 2 ^ 64 := by
  have hlt : ¬ v < 2 := by
    rw [UInt64.lt_iff_toNat_lt]
    exact Nat.not_lt.mpr hv
  have hone : (1 : UInt64) ≤ v := by
    rw [UInt64.le_iff_toNat_le]
    exact Nat.le_of_succ_le hv
  have hsub : (v - 1).toNat = v.toNat - 1 := by
    rw [UInt64.toNat_sub_of_le _ _ hone]; rfl
  set w := v.toNat - 1 with hw
  have hwlt : w < 2 ^ 64 := by have := v.toNat_lt; omega
  have hs : SmearedBy w 64 ((nextPow2 v - 1).toNat) := by
    have h := (((((SmearedBy.refl w).double).double).double).double).double.double
    simp only [nextPow2, hlt, if_false, UInt64.add_sub_cancel, UInt64.toNat_or,
      UInt64.toNat_shiftRight, hsub]
    exact h
  have hpred := hs.eq_pred_pow hwlt (by omega)
  have hadd : (nextPow2 v).toNat = ((nextPow2 v - 1).toNat + 1) % 2 ^ 64 := by
    conv_lhs => rw [← UInt64.sub_add_cancel (nextPow2 v) 1]
    rw [UInt64.toNat_add]; rfl
  rw [hadd, hpred, Nat.sub_add_cancel (Nat.one_le_two_pow)]

/-- For a request of at least two and well below the word size, the size is a power of two that holds it. -/
theorem nextPow2_spec {v : UInt64} (hv : 2 ≤ v.toNat) (hmax : v.toNat ≤ 2 ^ 63) :
    ∃ k, 1 ≤ k ∧ k ≤ 63 ∧ (nextPow2 v).toNat = 2 ^ k ∧ v.toNat ≤ 2 ^ k := by
  have hlog : (v.toNat - 1).log2 < 63 := by
    rw [Nat.log2_lt (by omega)]; omega
  refine ⟨(v.toNat - 1).log2 + 1, by omega, by omega, ?_, ?_⟩
  · rw [nextPow2_toNat hv]
    exact Nat.mod_eq_of_lt (Nat.pow_lt_pow_right (by omega) (by omega))
  · have := Nat.lt_log2_self (n := v.toNat - 1)
    omega

end SlickPerfmon
