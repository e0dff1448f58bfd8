import SlickPerfmon.Library.StdHeap
import SlickPerfmon.Report.Flush

/-!
# The order of a report

The comparator of `build_reports` reads the key of a row, and it compares the keys as numbers.
-/

namespace SlickPerfmon

open Library

variable {F : Type}

namespace Reporter

/-- What a row is looked up by. -/
@[ext]
structure RowKey where
  overflow : Bool
  point : UInt32
  fromStep : UInt8
  toStep : UInt8
deriving DecidableEq, Repr

def key (r : StageReport F) : RowKey := ⟨r.overflow, r.point, r.fromStep, r.toStep⟩

namespace RowKey

def total (k : RowKey) : Bool := k.fromStep == kBeginStep && k.toStep == kBeginStep

/-- A row with this key stands above one with the other: the overflow row has none below it, the points ascend, and of
a point the total comes last. -/
structure Above (k k' : RowKey) : Prop where
  overflow : k.overflow = false
  point : k'.overflow = false → k.point ≤ k'.point
  total : k'.overflow = false → k.point = k'.point → k.total = false
  steps : k'.overflow = false → k.point = k'.point →
    k'.total = true ∨ k.fromStep < k'.fromStep ∨ k.fromStep = k'.fromStep ∧ k.toStep < k'.toStep

/-- The comparator, on the keys. -/
def before (k k' : RowKey) : Bool :=
  if k.overflow ≠ k'.overflow then k'.overflow
  else if k.point ≠ k'.point then k.point < k'.point
  else if k.total ≠ k'.total then k'.total
  else if k.fromStep ≠ k'.fromStep then k.fromStep < k'.fromStep
  else k.toStep < k'.toStep

/-- The place of a key in the order. -/
def rank (k : RowKey) : Nat :=
  k.overflow.toNat * 2 ^ 50 + k.point.toNat * 2 ^ 17 + k.total.toNat * 2 ^ 16 + k.fromStep.toNat * 2 ^ 8 +
    k.toStep.toNat

/-- The digits of a rank do not carry. -/
theorem digits (k : RowKey) : k.point.toNat < 2 ^ 32 ∧ k.fromStep.toNat < 2 ^ 8 ∧ k.toStep.toNat < 2 ^ 8 ∧
    k.total.toNat ≤ 1 ∧ k.overflow.toNat ≤ 1 :=
  ⟨k.point.toNat_lt, k.fromStep.toNat_lt, k.toStep.toNat_lt, k.total.toNat_le, k.overflow.toNat_le⟩

theorem steps_of_total {k : RowKey} (h : k.total = true) : k.fromStep.toNat = 0 ∧ k.toStep.toNat = 0 := by
  rw [total, Bool.and_eq_true, beq_iff_eq, beq_iff_eq] at h
  rw [h.1, h.2]
  exact ⟨rfl, rfl⟩

theorem rank_inj {k k' : RowKey} (h : k.rank = k'.rank) : k = k' := by
  obtain ⟨hp, hf, hs, ht, ho⟩ := k.digits
  obtain ⟨hp', hf', hs', ht', ho'⟩ := k'.digits
  unfold rank at h
  have hoo : k.overflow = k'.overflow := by
    have hsame : k.overflow.toNat = k'.overflow.toNat := by omega
    cases hk : k.overflow <;> cases hk' : k'.overflow
    · rfl
    · rw [hk, hk'] at hsame; cases hsame
    · rw [hk, hk'] at hsame; cases hsame
    · rfl
  have hpp : k.point.toNat = k'.point.toNat := by omega
  have hff : k.fromStep.toNat = k'.fromStep.toNat := by omega
  have hss : k.toStep.toNat = k'.toStep.toNat := by omega
  exact RowKey.ext hoo (UInt32.toNat_inj.mp hpp) (UInt8.toNat_inj.mp hff) (UInt8.toNat_inj.mp hss)

theorem before_eq (k k' : RowKey) : k.before k' = decide (k.rank < k'.rank) := by
  obtain ⟨hp, hf, hs, ht, -⟩ := k.digits
  obtain ⟨hp', hf', hs', ht', -⟩ := k'.digits
  rw [before, Bool.eq_iff_iff, decide_eq_true_iff, rank, rank]
  split
  · rename_i hne
    cases ho : k.overflow <;> cases ho' : k'.overflow
    · exact absurd (ho.trans ho'.symm) hne
    · simp only [Bool.toNat_false, Bool.toNat_true, true_iff]; omega
    · simp only [Bool.toNat_false, Bool.toNat_true, Bool.false_eq_true, false_iff]; omega
    · exact absurd (ho.trans ho'.symm) hne
  · rename_i hover
    rw [ne_eq, not_not] at hover
    rw [hover]
    split
    · rename_i hne
      rw [decide_eq_true_iff, UInt32.lt_iff_toNat_lt]
      rw [ne_eq, ← UInt32.toNat_inj] at hne
      omega
    · rename_i hpoint
      rw [ne_eq, not_not] at hpoint
      rw [hpoint]
      split
      · rename_i hne
        cases ht : k.total <;> cases ht' : k'.total
        · exact absurd (ht.trans ht'.symm) hne
        · simp only [Bool.toNat_false, Bool.toNat_true, true_iff]; omega
        · simp only [Bool.toNat_false, Bool.toNat_true, Bool.false_eq_true, false_iff]; omega
        · exact absurd (ht.trans ht'.symm) hne
      · rename_i htotal
        rw [ne_eq, not_not] at htotal
        rw [htotal]
        split
        · rename_i hne
          rw [decide_eq_true_iff, UInt8.lt_iff_toNat_lt]
          rw [ne_eq, ← UInt8.toNat_inj] at hne
          omega
        · rename_i hfrom
          rw [ne_eq, not_not] at hfrom
          rw [decide_eq_true_iff, UInt8.lt_iff_toNat_lt, hfrom]
          omega

/-- Where the overflow row shares its key with no other, ascending ranks are the order of the report. -/
theorem above_of_rank {k k' : RowKey} (h : k.rank < k'.rank)
    (hk : k.overflow = true → k'.overflow = true → k = k') : Above k k' := by
  obtain ⟨hp, hf, hs, ht, -⟩ := k.digits
  obtain ⟨hp', hf', hs', ht', -⟩ := k'.digits
  rw [rank, rank] at h
  have hover : k.overflow = false := by
    cases ho : k.overflow with
    | false => rfl
    | true =>
        cases ho' : k'.overflow with
        | false =>
            rw [ho, ho', Bool.toNat_true, Bool.toNat_false] at h
            omega
        | true =>
            cases hk ho ho'
            omega
  refine ⟨hover, fun h' => ?_, fun h' hsame => ?_, fun h' hsame => ?_⟩
  · rw [hover, h'] at h
    rw [UInt32.le_iff_toNat_le]
    omega
  · rw [hover, h', hsame] at h
    cases htotal : k.total with
    | false => rfl
    | true =>
        obtain ⟨hf0, hs0⟩ := steps_of_total htotal
        cases htotal' : k'.total with
        | false =>
            rw [htotal, htotal', Bool.toNat_true, Bool.toNat_false] at h
            omega
        | true =>
            obtain ⟨hf0', hs0'⟩ := steps_of_total htotal'
            rw [htotal, htotal'] at h
            omega
  · rw [hover, h', hsame] at h
    cases htotal' : k'.total with
    | true => exact Or.inl rfl
    | false =>
        refine Or.inr ?_
        rw [htotal', Bool.toNat_false] at h
        rw [UInt8.lt_iff_toNat_lt, UInt8.lt_iff_toNat_lt, ← UInt8.toNat_inj]
        omega

end RowKey

theorem rowBefore_eq (r r' : StageReport F) : rowBefore r r' = decide ((key r).rank < (key r').rank) :=
  (key r).before_eq (key r')

/-- It is a comparator a library may sort with. -/
theorem rowBefore_strictWeak : StrictWeak (rowBefore : StageReport F → StageReport F → Bool) where
  asymm r r' h := by
    rw [rowBefore_eq, decide_eq_true_iff] at h
    rw [rowBefore_eq, decide_eq_false_iff_not]
    omega
  negTrans r r' r'' h h' := by
    rw [rowBefore_eq, decide_eq_false_iff_not] at *
    omega

end Reporter

end SlickPerfmon
