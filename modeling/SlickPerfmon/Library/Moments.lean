import Mathlib.Algebra.BigOperators.Group.List.Basic
import Mathlib.Algebra.CharZero.Defs
import Mathlib.Algebra.Field.Basic
import Mathlib.Data.List.Induction
import Mathlib.Data.Nat.Cast.Basic
import Mathlib.Tactic.FieldSimp
import Mathlib.Tactic.Ring

/-!
# Running moments

Count, sum, mean and the sum of squared deviations of a list, one element at a time and by joining two parts. Over
a field of characteristic zero both forms give the textbook sums, however the list is cut.
-/

namespace SlickPerfmon.Library

structure Moments (K : Type) where
  count : Nat
  sum : K
  mean : K
  m2 : K

namespace Moments

variable {K : Type} [Field K]

def empty : Moments K := ⟨0, 0, 0, 0⟩

/-- Welford's update. -/
def add (a : Moments K) (x : K) : Moments K :=
  let mean := a.mean + (x - a.mean) / (a.count + 1 : Nat)
  ⟨a.count + 1, a.sum + x, mean, a.m2 + (x - a.mean) * (x - mean)⟩

/-- Chan's form of joining `b` to `a`. -/
def join (a b : Moments K) : Moments K :=
  let n : K := a.count + b.count
  let delta := b.mean - a.mean
  ⟨a.count + b.count, a.sum + b.sum, a.mean + delta * b.count / n,
    a.m2 + (b.m2 + delta * delta * a.count * b.count / n)⟩

def ofList (xs : List K) : Moments K := xs.foldl add empty

/-- The moments with a given count, sum and sum of squares. -/
def ofSums (n : Nat) (s q : K) : Moments K := ⟨n, s, s / n, q - s * (s / n)⟩

variable [CharZero K]

theorem ofSums_add (n : Nat) {s q : K} (h0 : n = 0 → s = 0 ∧ q = 0) (x : K) :
    (ofSums n s q).add x = ofSums (n + 1) (s + x) (q + x ^ 2) := by
  have hn1 : (n : K) + 1 ≠ 0 := by exact_mod_cast Nat.succ_ne_zero n
  rcases Nat.eq_zero_or_pos n with rfl | hpos
  · obtain ⟨rfl, rfl⟩ := h0 rfl
    simp [ofSums, add, sq]
  · have hn : (n : K) ≠ 0 := by exact_mod_cast Nat.pos_iff_ne_zero.mp hpos
    simp only [ofSums, add, Nat.cast_add, Nat.cast_one, mk.injEq, true_and]
    constructor
    · field_simp
      ring
    · field_simp
      ring

/-- A list's moments are those of its sums. -/
theorem ofList_eq (xs : List K) : ofList xs = ofSums xs.length xs.sum (xs.map (· ^ 2)).sum := by
  induction xs using List.reverseRecOn with
  | nil => simp [ofList, ofSums, empty]
  | append_singleton xs x ih =>
      have h0 : xs.length = 0 → xs.sum = 0 ∧ (xs.map (· ^ 2)).sum = 0 := by
        intro hlen
        rw [List.length_eq_zero_iff.mp hlen]
        exact ⟨rfl, rfl⟩
      have hadd := ofSums_add xs.length h0 x
      rw [← ih] at hadd
      have hsnoc : ofList (xs ++ [x]) = (ofList xs).add x := by simp [ofList]
      rw [hsnoc, hadd]
      simp

theorem ofSums_join {n n' : Nat} {s q s' q' : K} (h0 : n = 0 → s = 0 ∧ q = 0) (hpos : 0 < n') :
    (ofSums n s q).join (ofSums n' s' q') = ofSums (n + n') (s + s') (q + q') := by
  have hn' : (n' : K) ≠ 0 := by exact_mod_cast Nat.pos_iff_ne_zero.mp hpos
  have hsum : (n : K) + n' ≠ 0 := by exact_mod_cast Nat.pos_iff_ne_zero.mp (Nat.add_pos_right n hpos)
  rcases Nat.eq_zero_or_pos n with rfl | hn
  · obtain ⟨rfl, rfl⟩ := h0 rfl
    simp [ofSums, join, hn']
  · have hn : (n : K) ≠ 0 := by exact_mod_cast Nat.pos_iff_ne_zero.mp hn
    simp only [ofSums, join, Nat.cast_add, mk.injEq, true_and]
    constructor
    · field_simp
      ring
    · field_simp
      ring

/-- Joining a part that has elements is feeding its elements. -/
theorem join_ofList (xs : List K) {ys : List K} (h : ys ≠ []) :
    (ofList xs).join (ofList ys) = ofList (xs ++ ys) := by
  have h0 : xs.length = 0 → xs.sum = 0 ∧ (xs.map (· ^ 2)).sum = 0 := by
    intro hlen
    rw [List.length_eq_zero_iff.mp hlen]
    exact ⟨rfl, rfl⟩
  rw [ofList_eq, ofList_eq, ofList_eq, ofSums_join h0 (List.length_pos_iff.mpr h)]
  simp

theorem mean_ofList (xs : List K) : (ofList xs).mean = xs.sum / xs.length := by
  rw [ofList_eq]
  rfl

/-- The sum of squared deviations from the mean. -/
theorem m2_ofList (xs : List K) : (ofList xs).m2 = (xs.map fun x => (x - xs.sum / xs.length) ^ 2).sum := by
  have hdev : ∀ (m : K) (ys : List K), (ys.map fun x => (x - m) ^ 2).sum =
      (ys.map (· ^ 2)).sum - 2 * m * ys.sum + ys.length * m ^ 2 := by
    intro m ys
    induction ys with
    | nil => simp
    | cons y ys ih =>
        simp only [List.map_cons, List.sum_cons, ih, List.length_cons, Nat.cast_add, Nat.cast_one]
        ring
  rw [ofList_eq, hdev]
  rcases Nat.eq_zero_or_pos xs.length with hlen | hlen
  · rw [List.length_eq_zero_iff.mp hlen]
    simp [ofSums]
  · have hn : (xs.length : K) ≠ 0 := by exact_mod_cast Nat.pos_iff_ne_zero.mp hlen
    simp only [ofSums]
    field_simp
    ring

end Moments

end SlickPerfmon.Library
