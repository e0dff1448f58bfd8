import Mathlib.Algebra.BigOperators.Group.List.Basic
import Mathlib.Algebra.Order.Floor.Semiring
import Mathlib.Data.Rat.Floor
import Mathlib.Order.Lattice
import Mathlib.Tactic.FieldSimp
import Mathlib.Tactic.Positivity
import Mathlib.Tactic.Ring

/-!
# Nearest ranks by cumulative counts

Values are counted in bins, by a function that respects their order. Walking the bins until the running count
reaches `k` stops at the bin of the `k`-th smallest value.
-/

namespace SlickPerfmon.Library

variable {α β : Type}

/-- The first of the bins at which the running count, from `seen`, reaches `want`. -/
def firstReaching (count : β → Nat) (want : Nat) : Nat → List β → Option β
  | _, [] => none
  | seen, b :: bins =>
      if want ≤ seen + count b then some b else firstReaching count want (seen + count b) bins

theorem firstReaching_append (count : β → Nat) {want : Nat} {before : List β} {b : β} (after : List β) :
    ∀ {seen : Nat}, seen + (before.map count).sum < want → want ≤ seen + (before.map count).sum + count b →
      firstReaching count want seen (before ++ b :: after) = some b := by
  induction before with
  | nil =>
      intro seen _ hreach
      rw [List.nil_append, firstReaching, if_pos (by simpa using hreach)]
  | cons c before ih =>
      intro seen hshort hreach
      rw [List.map_cons, List.sum_cons] at hshort hreach
      rw [List.cons_append, firstReaching, if_neg (by omega)]
      exact ih (by omega) (by omega)

theorem firstReaching_congr {count count' : β → Nat} (want : Nat) {bins : List β}
    (heq : ∀ b ∈ bins, count b = count' b) :
    ∀ {seen : Nat}, firstReaching count want seen bins = firstReaching count' want seen bins := by
  induction bins with
  | nil =>
      intro seen
      rfl
  | cons b bins ih =>
      intro seen
      rw [firstReaching, firstReaching, heq b (List.mem_cons_self ..),
        ih fun c hc => heq c (List.mem_cons_of_mem b hc)]

/-! ## Counting by bins -/

theorem countP_or {p q : α → Bool} (hdisj : ∀ x, p x = true → q x = false) (xs : List α) :
    xs.countP (fun x => p x || q x) = xs.countP p + xs.countP q := by
  induction xs with
  | nil => rfl
  | cons x xs ih =>
      have hx := hdisj x
      simp only [List.countP_cons, ih]
      cases hp : p x
      · simp [Nat.add_assoc]
      · simp [hx hp]
        omega

section bins

variable [DecidableEq β]

/-- Distinct bins count the values that lie in any of them. -/
theorem sum_countP (f : α → β) (xs : List α) {bins : List β} (hnd : bins.Nodup) :
    (bins.map fun b => xs.countP fun x => f x = b).sum = xs.countP fun x => f x ∈ bins := by
  induction bins with
  | nil => simp
  | cons b bins ih =>
      rw [List.nodup_cons] at hnd
      rw [List.map_cons, List.sum_cons, ih hnd.2, ← countP_or]
      · simp [List.mem_cons]
      · intro x hx
        rw [decide_eq_true_eq] at hx
        simpa [hx] using hnd.1

end bins

/-! ## The bin of the `k`-th smallest value -/

section rank

variable [LinearOrder β] {f : α → β}

/-- The value at place `i` with what is before and after it. -/
theorem exists_append_of_getElem? {ys : List α} {i : Nat} {x : α} (hx : ys[i]? = some x) :
    ∃ before after, ys = before ++ x :: after ∧ before.length = i := by
  obtain ⟨hi, rfl⟩ := List.getElem?_eq_some_iff.mp hx
  refine ⟨ys.take i, ys.drop (i + 1), ?_, by rw [List.length_take]; omega⟩
  rw [← List.drop_eq_getElem_cons hi, List.take_append_drop]

/-- At most `i` values lie in the bins below that of the value at place `i`. -/
theorem countP_le_of_sorted {ys : List α} (hsorted : ys.Pairwise fun a b => f a ≤ f b) {i : Nat} {x : α}
    (hx : ys[i]? = some x) : (ys.countP fun y => f y < f x) ≤ i := by
  obtain ⟨before, after, rfl, rfl⟩ := exists_append_of_getElem? hx
  rw [List.pairwise_append, List.pairwise_cons] at hsorted
  have hafter : (after.countP fun y => f y < f x) = 0 := by
    rw [List.countP_eq_zero]
    intro y hy
    simpa using hsorted.2.1.1 y hy
  rw [List.countP_append, List.countP_cons_of_neg (by simp), hafter]
  exact List.countP_le_length

/-- More than `i` values lie in the bins up to that of the value at place `i`. -/
theorem lt_countP_of_sorted {ys : List α} (hsorted : ys.Pairwise fun a b => f a ≤ f b) {i : Nat} {x : α}
    (hx : ys[i]? = some x) : i < ys.countP fun y => f y ≤ f x := by
  obtain ⟨before, after, rfl, rfl⟩ := exists_append_of_getElem? hx
  rw [List.pairwise_append] at hsorted
  have hbefore : (before.countP fun y => f y ≤ f x) = before.length := by
    rw [List.countP_eq_length]
    intro y hy
    simpa using hsorted.2.2 y hy x (by simp)
  rw [List.countP_append, hbefore, List.countP_cons_of_pos (by simp)]
  omega

/-- The walk over the bins in order stops at the bin of the value at place `i` of the sorted values. -/
theorem firstReaching_sorted {xs ys : List α} (hperm : ys.Perm xs) (hsorted : ys.Pairwise fun a b => f a ≤ f b)
    {i : Nat} {x : α} (hx : ys[i]? = some x) {bins : List β} (hbins : bins.Pairwise (· < ·))
    (hall : ∀ y ∈ xs, f y ∈ bins) :
    firstReaching (fun b => xs.countP fun y => f y = b) (i + 1) 0 bins = some (f x) := by
  have hmem : f x ∈ bins := hall x (hperm.mem_iff.mp (List.mem_of_getElem? hx))
  obtain ⟨before, after, rfl⟩ := List.append_of_mem hmem
  rw [List.pairwise_append, List.pairwise_cons] at hbins
  obtain ⟨hbefore, hafter, hlt⟩ := hbins
  have hnd : before.Nodup := hbefore.imp ne_of_lt
  have hin : ∀ y ∈ xs, f y ∈ before ↔ f y < f x := by
    intro y hy
    constructor
    · intro hyb
      exact hlt _ hyb _ (by simp)
    · intro hyx
      have hyb := hall y hy
      rw [List.mem_append, List.mem_cons] at hyb
      rcases hyb with hyb | heq | hya
      · exact hyb
      · exact absurd heq (ne_of_lt hyx)
      · exact absurd (hafter.1 _ hya) (not_lt_of_gt hyx)
  have hbelow : (before.map fun b => xs.countP fun y => f y = b).sum = xs.countP fun y => f y < f x := by
    rw [sum_countP f xs hnd]
    exact List.countP_congr fun y hy => by simpa using hin y hy
  have hupto : (xs.countP fun y => f y ≤ f x) =
      (xs.countP fun y => f y < f x) + xs.countP fun y => f y = f x := by
    rw [← countP_or]
    · exact List.countP_congr fun y _ => by simp [le_iff_lt_or_eq]
    · intro y hy
      rw [decide_eq_true_eq] at hy
      simpa using ne_of_lt hy
  have hfew := countP_le_of_sorted hsorted hx
  have hmany := lt_countP_of_sorted hsorted hx
  rw [hperm.countP_eq] at hfew hmany
  apply firstReaching_append
  · rw [hbelow]
    omega
  · rw [hbelow]
    omega

end rank

/-! ## The rank of a fraction -/

/-- Splitting the count at the scale keeps the rounded-up product exact. -/
theorem ceilDiv_split (n s : Nat) {c : Nat} (hc : 0 < c) :
    n / c * s + (n % c * s + c - 1) / c = (n * s + c - 1) / c := by
  have hsplit : n * s + c - 1 = n % c * s + c - 1 + n / c * s * c := by
    have hdiv : n = n / c * c + n % c := (Nat.div_add_mod' n c).symm
    have hmul : n * s = n / c * s * c + n % c * s := by
      conv_lhs => rw [hdiv]
      ring
    omega
  rw [hsplit, Nat.add_mul_div_right _ _ hc, Nat.add_comm]

theorem natCeil_div (m : Nat) {c : Nat} (hc : 0 < c) : ⌈(m : Rat) / c⌉₊ = (m + c - 1) / c := by
  have hcq : (0 : Rat) < c := by exact_mod_cast hc
  apply le_antisymm
  · rw [Nat.ceil_le, div_le_iff₀ hcq]
    have hround : m ≤ (m + c - 1) / c * c := by
      have := Nat.div_add_mod' (m + c - 1) c
      have := Nat.mod_lt (m + c - 1) hc
      omega
    exact_mod_cast hround
  · rw [Nat.div_le_iff_le_mul_add_pred hc]
    have hle : (m : Rat) ≤ ⌈(m : Rat) / c⌉₊ * c := by
      rw [← div_le_iff₀ hcq]
      exact Nat.le_ceil _
    have hnat : m ≤ ⌈(m : Rat) / c⌉₊ * c := by exact_mod_cast hle
    rw [Nat.mul_comm]
    omega

end SlickPerfmon.Library
