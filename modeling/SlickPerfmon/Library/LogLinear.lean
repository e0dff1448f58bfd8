import Mathlib.Algebra.Order.Group.Abs
import Mathlib.Algebra.Order.Ring.Int
import Mathlib.Order.Monotone.Basic
import Mathlib.Tactic.Positivity
import Mathlib.Tactic.Ring

/-!
# Log-linear buckets

The buckets of a histogram that counts below `2 ^ p` exactly and above it splits each power of two into `2 ^ p`
equal parts. One formula gives both regions: the lower one has a shift of zero.
-/

namespace SlickPerfmon.Library.LogLinear

/-- How many low bits the bucket of `v` leaves out. -/
def shift (p v : Nat) : Nat := v.log2 - p

/-- The bucket of `v`. -/
def index (p v : Nat) : Nat := shift p v * 2 ^ p + v / 2 ^ shift p v

/-- The middle of the bucket of `v`. -/
def midpoint (p v : Nat) : Nat := v / 2 ^ shift p v * 2 ^ shift p v + 2 ^ shift p v / 2

/-- The shift of the values in bucket `i`. -/
def bucketShift (p i : Nat) : Nat := i / 2 ^ p - 1

/-- The least value of bucket `i`. -/
def lower (p i : Nat) : Nat := (i - bucketShift p i * 2 ^ p) * 2 ^ bucketShift p i

def width (p i : Nat) : Nat := 2 ^ bucketShift p i

variable {p : Nat}

/-! ## The two regions -/

theorem log2_le_log2 {v w : Nat} (h : v ≤ w) : v.log2 ≤ w.log2 := by
  rcases Nat.eq_zero_or_pos v with rfl | hv
  · simp
  · have hw : w ≠ 0 := by omega
    rw [Nat.le_log2 hw]
    exact Nat.le_trans (Nat.log2_self_le (by omega)) h

theorem shift_mono {v w : Nat} (h : v ≤ w) : shift p v ≤ shift p w :=
  Nat.sub_le_sub_right (log2_le_log2 h) p

theorem shift_of_lt {v : Nat} (h : v < 2 ^ p) : shift p v = 0 := by
  rcases Nat.eq_zero_or_pos v with rfl | hv
  · simp [shift]
  · have hlog : v.log2 < p := (Nat.log2_lt (by omega)).mpr h
    exact Nat.sub_eq_zero_of_le (by omega)

theorem index_of_lt {v : Nat} (h : v < 2 ^ p) : index p v = v := by
  simp [index, shift_of_lt h]

theorem midpoint_of_lt {v : Nat} (h : v < 2 ^ p) : midpoint p v = v := by
  simp [midpoint, shift_of_lt h]

theorem log2_of_le {v : Nat} (h : 2 ^ p ≤ v) : v.log2 = shift p v + p := by
  have hv : v ≠ 0 := by
    have := Nat.two_pow_pos p
    omega
  have hlog : p ≤ v.log2 := (Nat.le_log2 hv).mpr h
  rw [shift]
  omega

/-- Above the exact region the quotient has its top bit at `p`. -/
theorem le_quotient {v : Nat} (h : 2 ^ p ≤ v) : 2 ^ p ≤ v / 2 ^ shift p v := by
  have hv : v ≠ 0 := by
    have := Nat.two_pow_pos p
    omega
  have hself := Nat.log2_self_le hv
  rw [log2_of_le h, Nat.pow_add] at hself
  rw [Nat.le_div_iff_mul_le (Nat.two_pow_pos _), Nat.mul_comm]
  exact hself

theorem quotient_lt (v : Nat) : v / 2 ^ shift p v < 2 ^ (p + 1) := by
  rw [Nat.div_lt_iff_lt_mul (Nat.two_pow_pos _), ← Nat.pow_add]
  have hlog : v.log2 + 1 ≤ p + 1 + shift p v := by
    rw [shift]
    omega
  exact Nat.lt_of_lt_of_le Nat.lt_log2_self (Nat.pow_le_pow_right (by omega) hlog)

theorem le_of_shift_pos {v : Nat} (h : 0 < shift p v) : 2 ^ p ≤ v := by
  by_contra hlt
  rw [shift_of_lt (by omega)] at h
  omega

/-! ## Order -/

theorem index_mono {v w : Nat} (h : v ≤ w) : index p v ≤ index p w := by
  have hshift : shift p v ≤ shift p w := shift_mono h
  rcases Nat.eq_or_lt_of_le hshift with heq | hlt
  · have hquot : v / 2 ^ shift p w ≤ w / 2 ^ shift p w := Nat.div_le_div_right h
    rw [index, index, heq]
    omega
  · have hv : v / 2 ^ shift p v < 2 ^ (p + 1) := quotient_lt v
    have hw : 2 ^ p ≤ w / 2 ^ shift p w := le_quotient (le_of_shift_pos (by omega))
    have hblock : (shift p v + 1) * 2 ^ p ≤ shift p w * 2 ^ p := Nat.mul_le_mul_right _ hlt
    rw [Nat.add_one_mul] at hblock
    rw [Nat.pow_succ] at hv
    rw [index, index]
    omega

theorem index_lt {b v : Nat} (hv : v < 2 ^ b) : index p v < (b - p + 1) * 2 ^ p := by
  by_cases hlt : v < 2 ^ p
  · rw [index_of_lt hlt]
    calc v < 1 * 2 ^ p := by omega
      _ ≤ (b - p + 1) * 2 ^ p := Nat.mul_le_mul_right _ (by omega)
  · have hpos := Nat.two_pow_pos p
    have hshift : v.log2 = shift p v + p := log2_of_le (by omega)
    have hlog : v.log2 < b := (Nat.log2_lt (by omega)).mpr hv
    have hquot : v / 2 ^ shift p v < 2 ^ (p + 1) := quotient_lt v
    have hblock : (shift p v + 2) * 2 ^ p ≤ (b - p + 1) * 2 ^ p := Nat.mul_le_mul_right _ (by omega)
    rw [Nat.add_mul] at hblock
    rw [Nat.pow_succ] at hquot
    rw [index]
    omega

/-! ## The buckets by their index -/

theorem width_pos (i : Nat) : 0 < width p i := Nat.two_pow_pos _

theorem bucketShift_block (b : Nat) {r : Nat} (hr : r < 2 ^ p) : bucketShift p (b * 2 ^ p + r) = b - 1 := by
  rw [bucketShift, Nat.add_comm, Nat.add_mul_div_right _ _ (Nat.two_pow_pos _), Nat.div_eq_of_lt hr, Nat.zero_add]

/-- The first block counts exactly, the others hold the upper half of a range twice as wide. -/
theorem lower_block (b : Nat) {r : Nat} (hr : r < 2 ^ p) :
    lower p (b * 2 ^ p + r) = if b = 0 then r else (2 ^ p + r) * 2 ^ (b - 1) := by
  rw [lower, bucketShift_block b hr]
  cases b with
  | zero => simp
  | succ b =>
      have hrest : (b + 1) * 2 ^ p + r - b * 2 ^ p = 2 ^ p + r := by
        rw [Nat.add_one_mul]
        omega
      rw [if_neg (Nat.succ_ne_zero b), Nat.add_sub_cancel, hrest]

/-- Every index is a place in a block. -/
theorem block_split (p i : Nat) : ∃ b r, r < 2 ^ p ∧ i = b * 2 ^ p + r :=
  ⟨i / 2 ^ p, i % 2 ^ p, Nat.mod_lt _ (Nat.two_pow_pos _), (Nat.div_add_mod' i _).symm⟩

theorem shift_of_quotient {q s : Nat} (hle : 2 ^ p ≤ q) (hlt : q < 2 ^ (p + 1)) : shift p (q * 2 ^ s) = s := by
  have hpos : 0 < q := Nat.lt_of_lt_of_le (Nat.two_pow_pos p) hle
  have hlow : 2 ^ (p + s) ≤ q * 2 ^ s := by
    rw [Nat.pow_add]
    exact Nat.mul_le_mul_right _ hle
  have hhigh : q * 2 ^ s < 2 ^ (p + s + 1) := by
    rw [Nat.add_right_comm, Nat.pow_add]
    exact Nat.mul_lt_mul_of_pos_right hlt (Nat.two_pow_pos s)
  have hlog : (q * 2 ^ s).log2 = p + s :=
    (Nat.log2_eq_iff (Nat.mul_pos hpos (Nat.two_pow_pos s)).ne').mpr ⟨hlow, hhigh⟩
  rw [shift, hlog, Nat.add_sub_cancel_left]

/-- A bucket begins with a value of its own. -/
theorem index_lower (i : Nat) : index p (lower p i) = i := by
  obtain ⟨b, r, hr, rfl⟩ := block_split p i
  rw [lower_block b hr]
  cases b with
  | zero => simpa using index_of_lt hr
  | succ b =>
      have hlt : 2 ^ p + r < 2 ^ (p + 1) := by
        rw [Nat.pow_succ]
        omega
      rw [if_neg (Nat.succ_ne_zero b), Nat.add_sub_cancel, index, shift_of_quotient (Nat.le_add_right _ r) hlt,
        Nat.mul_div_cancel _ (Nat.two_pow_pos b), Nat.add_one_mul]
      omega

/-- A bucket ends where the next one begins. -/
theorem lower_add_width (i : Nat) : lower p i + width p i = lower p (i + 1) := by
  obtain ⟨b, r, hr, rfl⟩ := block_split p i
  rw [width, bucketShift_block b hr, lower_block b hr]
  by_cases hnext : r + 1 < 2 ^ p
  · rw [Nat.add_assoc, lower_block b hnext]
    cases b with
    | zero => simp
    | succ b => rw [if_neg (Nat.succ_ne_zero b), if_neg (Nat.succ_ne_zero b)]; ring
  · -- the next bucket is the first of the next block
    have hlast : r + 1 = 2 ^ p := by omega
    have hindex : b * 2 ^ p + r + 1 = (b + 1) * 2 ^ p + 0 := by
      rw [Nat.add_one_mul]
      omega
    rw [hindex, lower_block (b + 1) (Nat.two_pow_pos p), if_neg (Nat.succ_ne_zero b), Nat.add_sub_cancel]
    cases b with
    | zero => simpa using hlast
    | succ b =>
        have hr' : r = 2 ^ p - 1 := by omega
        rw [if_neg (Nat.succ_ne_zero b), Nat.add_sub_cancel]
        calc (2 ^ p + r) * 2 ^ b + 2 ^ b = (2 ^ p + (r + 1)) * 2 ^ b := by ring
          _ = (2 ^ p + 0) * 2 ^ (b + 1) := by rw [hlast]; ring

theorem lower_strictMono : StrictMono (lower p) :=
  strictMono_nat_of_lt_succ fun i => by
    rw [← lower_add_width i]
    exact Nat.lt_add_of_pos_right (width_pos i)

/-- The buckets of the values below `2 ^ b` end at `2 ^ b`. -/
theorem lower_count {b : Nat} (hp : p ≤ b) : lower p ((b - p + 1) * 2 ^ p) = 2 ^ b := by
  have hblock := lower_block (b - p + 1) (Nat.two_pow_pos p)
  rw [Nat.add_zero] at hblock
  rw [hblock, if_neg (Nat.succ_ne_zero _), Nat.add_sub_cancel, Nat.add_zero, ← Nat.pow_add]
  congr 1
  omega

theorem lower_lt {b i : Nat} (hp : p ≤ b) (hi : i < (b - p + 1) * 2 ^ p) : lower p i < 2 ^ b := by
  rw [← lower_count hp]
  exact lower_strictMono hi

theorem bucketShift_index (v : Nat) : bucketShift p (index p v) = shift p v := by
  by_cases hlt : v < 2 ^ p
  · rw [index_of_lt hlt, shift_of_lt hlt, bucketShift, Nat.div_eq_of_lt hlt]
  · have hle : 2 ^ p ≤ v / 2 ^ shift p v := le_quotient (by omega)
    have hquot : v / 2 ^ shift p v < 2 ^ (p + 1) := quotient_lt v
    rw [Nat.pow_succ] at hquot
    have hindex : index p v = (shift p v + 1) * 2 ^ p + (v / 2 ^ shift p v - 2 ^ p) := by
      rw [index, Nat.add_one_mul]
      omega
    rw [hindex, bucketShift_block _ (by omega), Nat.add_sub_cancel]

theorem lower_index (v : Nat) : lower p (index p v) = v / 2 ^ shift p v * 2 ^ shift p v := by
  rw [lower, bucketShift_index, index, Nat.add_sub_cancel_left]

theorem width_index (v : Nat) : width p (index p v) = 2 ^ shift p v := by rw [width, bucketShift_index]

/-- A value lies in its own bucket and in no other. -/
theorem index_eq_iff {v i : Nat} : index p v = i ↔ lower p i ≤ v ∧ v < lower p i + width p i := by
  constructor
  · rintro rfl
    have hdiv := Nat.div_add_mod' v (2 ^ shift p v)
    have hmod : v % 2 ^ shift p v < 2 ^ shift p v := Nat.mod_lt _ (Nat.two_pow_pos _)
    rw [lower_index, width_index]
    omega
  · rintro ⟨hle, hlt⟩
    have hlow : i ≤ index p v := by
      rw [← index_lower (p := p) i]
      exact index_mono hle
    have hhigh : index p v < i + 1 := by
      by_contra hnot
      have hmono : lower p (i + 1) ≤ lower p (index p v) := lower_strictMono.monotone (Nat.le_of_not_lt hnot)
      have hown : lower p (index p v) ≤ v := by
        rw [lower_index]
        exact Nat.div_mul_le_self _ _
      rw [← lower_add_width] at hmono
      omega
    omega

theorem midpoint_eq (v : Nat) : midpoint p v = lower p (index p v) + width p (index p v) / 2 := by
  rw [midpoint, lower_index, width_index]

/-! ## The middle of a bucket -/

theorem midpoint_bounds (v : Nat) :
    v / 2 ^ shift p v * 2 ^ shift p v ≤ midpoint p v ∧
      midpoint p v < (v / 2 ^ shift p v + 1) * 2 ^ shift p v := by
  have hpos := Nat.two_pow_pos (shift p v)
  rw [midpoint, Nat.add_one_mul]
  omega

theorem midpoint_mono {v w : Nat} (h : v ≤ w) : midpoint p v ≤ midpoint p w := by
  have hshift : shift p v ≤ shift p w := shift_mono h
  rcases Nat.eq_or_lt_of_le hshift with heq | hlt
  · have hquot : v / 2 ^ shift p w ≤ w / 2 ^ shift p w := Nat.div_le_div_right h
    have hmul := Nat.mul_le_mul_right (2 ^ shift p w) hquot
    rw [midpoint, midpoint, heq]
    omega
  · -- the bucket of `v` ends where the next power of two begins
    have hw : 2 ^ p ≤ w / 2 ^ shift p w := le_quotient (le_of_shift_pos (by omega))
    have hv : v / 2 ^ shift p v + 1 ≤ 2 ^ (p + 1) := quotient_lt v
    calc midpoint p v ≤ (v / 2 ^ shift p v + 1) * 2 ^ shift p v := (midpoint_bounds v).2.le
      _ ≤ 2 ^ (p + 1) * 2 ^ shift p v := Nat.mul_le_mul_right _ hv
      _ = 2 ^ p * 2 ^ (shift p v + 1) := by ring
      _ ≤ 2 ^ p * 2 ^ shift p w := Nat.mul_le_mul_left _ (Nat.pow_le_pow_right (by omega) hlt)
      _ ≤ w / 2 ^ shift p w * 2 ^ shift p w := Nat.mul_le_mul_right _ hw
      _ ≤ midpoint p w := (midpoint_bounds w).1

/-- Half a bucket is at most one part in `2 ^ (p + 1)` of any value in it. -/
theorem midpoint_error (v : Nat) : |(midpoint p v : Int) - v| * 2 ^ (p + 1) ≤ v := by
  rcases Nat.eq_zero_or_pos (shift p v) with h0 | hpos
  · have hmid : midpoint p v = v := by simp [midpoint, h0]
    rw [hmid, Int.sub_self, abs_zero, Int.zero_mul]
    exact Int.natCast_nonneg v
  · obtain ⟨s, hs⟩ : ∃ s, shift p v = s + 1 := ⟨shift p v - 1, by omega⟩
    have hle : 2 ^ p ≤ v := le_of_shift_pos hpos
    have hdiv := Nat.div_add_mod' v (2 ^ shift p v)
    have hmod : v % 2 ^ shift p v < 2 ^ shift p v := Nat.mod_lt _ (Nat.two_pow_pos _)
    have hhalf : |(midpoint p v : Int) - v| ≤ (2 ^ s : Nat) := by
      rw [hs, Nat.pow_succ] at hmod hdiv
      rw [abs_le, midpoint, hs, Nat.pow_succ]
      omega
    have hself : 2 ^ s * 2 ^ (p + 1) ≤ v := by
      have hpow := Nat.two_pow_pos p
      have hlog := Nat.log2_self_le (show v ≠ 0 by omega)
      rw [log2_of_le hle, hs] at hlog
      calc 2 ^ s * 2 ^ (p + 1) = 2 ^ (s + 1 + p) := by ring
        _ ≤ v := hlog
    calc |(midpoint p v : Int) - v| * 2 ^ (p + 1) ≤ (2 ^ s : Nat) * 2 ^ (p + 1) :=
          Int.mul_le_mul_of_nonneg_right hhalf (by positivity)
      _ ≤ v := by exact_mod_cast hself

/-- In the exact region there is no room for an error. -/
theorem eq_of_error {r v : Nat} (herr : |(r : Int) - v| * 2 ^ (p + 1) ≤ v) (h : v < 2 ^ p) : r = v := by
  by_contra hne
  have hone : 1 ≤ |(r : Int) - v| := Int.one_le_abs (by omega)
  have hpow : (2 ^ (p + 1) : Int) ≤ v :=
    calc (2 ^ (p + 1) : Int) = 1 * 2 ^ (p + 1) := (Int.one_mul _).symm
      _ ≤ |(r : Int) - v| * 2 ^ (p + 1) := Int.mul_le_mul_of_nonneg_right hone (by positivity)
      _ ≤ v := herr
  have hnat : 2 ^ (p + 1) ≤ v := by exact_mod_cast hpow
  rw [Nat.pow_succ] at hnat
  omega

end SlickPerfmon.Library.LogLinear
