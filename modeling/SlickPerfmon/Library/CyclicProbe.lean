import Mathlib.Data.List.Basic
import Mathlib.Data.List.Perm.Basic
import Mathlib.Data.List.Range
import Mathlib.Data.Nat.Find
import Mathlib.Logic.Function.Basic

/-!
# Probe sequences on a ring of slots

Linear probing walks a ring of `n` slots from the home of a key. This module fixes the cyclic distance,
the loop that walks to the first stopping slot, and the property that makes probing correct: no unused slot
lies between the home of an entry and the entry. Deletion by moving entries backwards opens a hole, moves it,
and closes it; each of the three steps has one lemma.
-/

namespace SlickPerfmon.Library

/-! ## Cyclic distance -/

/-- The number of slots from `a` forward to `b` in a ring of `n` slots. -/
def cdist (n a b : Nat) : Nat := if a ≤ b then b - a else b + n - a

/-- The slot after `a` in a ring of `n` slots. -/
def cnext (n a : Nat) : Nat := if a + 1 < n then a + 1 else 0

theorem cdist_self (n a : Nat) : cdist n a a = 0 := by simp [cdist]

theorem cdist_lt {n a b : Nat} (ha : a < n) (hb : b < n) : cdist n a b < n := by
  unfold cdist; split <;> omega

theorem cdist_eq_zero {n a b : Nat} (ha : a < n) (h : cdist n a b = 0) : a = b := by
  unfold cdist at h; split at h <;> omega

theorem cnext_lt {n a : Nat} (hn : 0 < n) : cnext n a < n := by
  unfold cnext; split <;> omega

theorem cdist_cnext {n a b : Nat} (ha : a < n) (hb : b < n) (hab : a ≠ b) :
    cdist n a b = cdist n (cnext n a) b + 1 := by
  unfold cdist cnext
  split_ifs <;> omega

theorem cdist_succ {n a j : Nat} (ha : a < n) (hj : j < n) (h : cdist n a j + 1 < n) :
    cdist n a (cnext n j) = cdist n a j + 1 := by
  unfold cdist cnext at *
  split_ifs at * <;> omega

/-- Distances along one walk add up. -/
theorem cdist_add {n a b c : Nat} (ha : a < n) (hb : b < n)
    (h : cdist n a b + cdist n b c < n) : cdist n a c = cdist n a b + cdist n b c := by
  unfold cdist at *
  split_ifs at * <;> omega

theorem cdist_sub {n a b c : Nat} (ha : a < n) (hb : b < n) (hc : c < n)
    (h : cdist n a b ≤ cdist n a c) : cdist n a c = cdist n a b + cdist n b c := by
  unfold cdist at *
  split_ifs at * <;> omega

theorem cdist_inj {n a b c : Nat} (ha : a < n) (hb : b < n) (hc : c < n)
    (h : cdist n a b = cdist n a c) : b = c := by
  unfold cdist at h
  split_ifs at h <;> omega

/-! ## The probe loop -/

/-- Walk forward from a slot to the first one at which `stop` holds; `none` when the fuel runs out first. -/
def firstStop (next : Nat → Nat) (stop : Nat → Bool) : Nat → Nat → Option Nat
  | 0, _ => none
  | fuel + 1, i => if stop i then some i else firstStop next stop fuel (next i)

theorem firstStop_eq {n : Nat} {next : Nat → Nat} {stop : Nat → Bool}
    (hnext : ∀ a, a < n → next a = cnext n a) {j : Nat} (hj : j < n) (hstop : stop j = true) :
    ∀ (d i fuel : Nat), i < n → cdist n i j = d → d < fuel →
      (∀ t, t < n → cdist n i t < d → stop t = false) → firstStop next stop fuel i = some j := by
  intro d
  induction d with
  | zero =>
      intro i fuel hi hd hf _
      obtain ⟨fuel, rfl⟩ := Nat.exists_eq_succ_of_ne_zero (by omega : fuel ≠ 0)
      have hij := cdist_eq_zero hi hd
      simp [firstStop, hij, hstop]
  | succ d ih =>
      intro i fuel hi hd hf hbefore
      obtain ⟨fuel, rfl⟩ := Nat.exists_eq_succ_of_ne_zero (by omega : fuel ≠ 0)
      have hne : i ≠ j := by rintro rfl; simp [cdist_self] at hd
      have hstep := cdist_cnext hi hj hne
      have hni : cnext n i < n := cnext_lt (by omega)
      have hi0 : stop i = false := hbefore i hi (by simp [cdist_self])
      simp only [firstStop, hi0, Bool.false_eq_true, if_false, hnext i hi]
      refine ih _ fuel hni (by omega) (by omega) ?_
      intro t ht htd
      refine hbefore t ht ?_
      by_cases hit : i = t
      · subst hit; simp [cdist_self]
      · have := cdist_cnext hi ht hit; omega

/-- With a stopping slot somewhere in the ring, the loop ends at the first one. -/
theorem firstStop_spec {n : Nat} (next : Nat → Nat) (stop : Nat → Bool)
    (hnext : ∀ a, a < n → next a = cnext n a) {i u : Nat} (hi : i < n) (hu : u < n)
    (hstop : stop u = true) :
    ∃ j, j < n ∧ firstStop next stop n i = some j ∧ stop j = true ∧
      ∀ t, t < n → cdist n i t < cdist n i j → stop t = false := by
  have hex : ∃ d j, j < n ∧ cdist n i j = d ∧ stop j = true := ⟨_, u, hu, rfl, hstop⟩
  classical
  obtain ⟨j, hj, hd, hsj⟩ := Nat.find_spec hex
  have hmin : ∀ t, t < n → cdist n i t < cdist n i j → stop t = false := by
    intro t ht hlt
    rw [hd] at hlt
    by_contra hst
    exact Nat.find_min hex hlt ⟨t, ht, rfl, by simpa using hst⟩
  exact ⟨j, hj, firstStop_eq hnext hj hsj _ i n hi rfl (cdist_lt hi hj) hmin, hsj, hmin⟩

/-! ## No unused slot inside a probe run -/

section Runs

variable {κ : Type} (home : κ → Nat) (n : Nat)

/-- No slot between the home of an entry and the entry is unused, `hole` excepted. With `hole = n` there is
no exception. -/
def RunsFull (slot : Nat → Option κ) (hole : Nat) : Prop :=
  ∀ j k, j < n → slot j = some k → ∀ t, t < n → t ≠ hole →
    cdist n (home k) t < cdist n (home k) j → slot t ≠ none

/-- The slots after `hole` up to `j` hold no entry whose run includes the hole. -/
def Scanned (slot : Nat → Option κ) (hole j : Nat) : Prop :=
  ∀ t k, t < n → 0 < cdist n hole t → cdist n hole t ≤ cdist n hole j → slot t = some k →
    cdist n (home k) t < cdist n (home k) hole

variable {home n} {slot : Nat → Option κ}

/-- Filling an unused slot at the end of a full run keeps every run full. -/
theorem RunsFull.fill {k : κ} {i : Nat} (h : RunsFull home n slot n) (hi : slot i = none)
    (hrun : ∀ t, t < n → cdist n (home k) t < cdist n (home k) i → slot t ≠ none) :
    RunsFull home n (Function.update slot i (some k)) n := by
  intro j k' hj hs t ht hne hlt
  by_cases hti : t = i
  · subst hti; simp
  · rw [Function.update_of_ne hti]
    by_cases hji : j = i
    · subst hji
      simp only [Function.update_self, Option.some.injEq] at hs
      subst hs
      exact hrun t ht hlt
    · rw [Function.update_of_ne hji] at hs
      exact h j k' hj hs t ht hne hlt

/-- Clearing a slot opens a hole there. -/
theorem RunsFull.clear {i : Nat} (h : RunsFull home n slot n) :
    RunsFull home n (Function.update slot i none) i := by
  intro j k hj hs t ht hti hlt
  have hji : j ≠ i := by rintro rfl; simp at hs
  rw [Function.update_of_ne hji] at hs
  rw [Function.update_of_ne hti]
  exact h j k hj hs t ht (by omega) hlt

/-- An entry whose run includes the hole may fill it; the hole is then where the entry was. -/
theorem RunsFull.move {i j : Nat} {k : κ} (h : RunsFull home n slot i)
    (hj : j < n) (hs : slot j = some k)
    (hle : cdist n (home k) i ≤ cdist n (home k) j) :
    RunsFull home n (Function.update (Function.update slot i (some k)) j none) j := by
  intro j' k' hj' hs' t ht htj hlt
  have hj'j : j' ≠ j := by rintro rfl; simp at hs'
  rw [Function.update_of_ne hj'j] at hs'
  rw [Function.update_of_ne htj]
  by_cases hti : t = i
  · subst hti; simp
  · rw [Function.update_of_ne hti]
    by_cases hj'i : j' = i
    · subst hj'i
      simp only [Function.update_self, Option.some.injEq] at hs'
      subst hs'
      exact h j k hj hs t ht hti (by omega)
    · rw [Function.update_of_ne hj'i] at hs'
      exact h j' k' hj' hs' t ht hti hlt

theorem Scanned.start (i : Nat) : Scanned home n slot i i := by
  intro t k _ h0 hle _
  rw [cdist_self] at hle
  omega

/-- An entry that may not move extends the scanned part. -/
theorem Scanned.extend {i j : Nat} (h : Scanned home n slot i j) (hi : i < n) (hj : j < n)
    (hlast : cdist n i j + 1 < n)
    (hkeep : ∀ k, slot (cnext n j) = some k →
      ¬ cdist n (home k) i ≤ cdist n (home k) (cnext n j)) :
    Scanned home n slot i (cnext n j) := by
  intro t k ht h0 hle hs
  have hsucc := cdist_succ hi hj hlast
  by_cases htj : cdist n i t ≤ cdist n i j
  · exact h t k ht h0 htj hs
  · have hteq : t = cnext n j :=
      cdist_inj hi ht (cnext_lt (by omega)) (by omega)
    subst hteq
    have := hkeep k hs
    omega

/-- An unused slot right after the scanned part closes the hole. -/
theorem RunsFull.close {i j : Nat} (h : RunsFull home n slot i) (hsc : Scanned home n slot i j)
    (hi : i < n) (hj : j < n) (hhome : ∀ k, home k < n) (hu : slot (cnext n j) = none) :
    RunsFull home n slot n := by
  intro t k ht hs u hun hne hlt
  by_cases hui : u = i
  · subst hui
    exfalso
    have hut := cdist_sub (hhome k) hun ht (Nat.le_of_lt hlt)
    by_cases htj : cdist n u t ≤ cdist n u j
    · have := hsc t k ht (by omega) htj hs
      omega
    · have htn := cdist_lt hun ht
      have hsucc := cdist_succ hun hj (by omega)
      have hwn : cnext n j < n := cnext_lt (by omega)
      have hkt := cdist_lt (hhome k) ht
      have htu : t ≠ cnext n j := by rintro rfl; rw [hs] at hu; cases hu
      have hlt' : cdist n u (cnext n j) ≠ cdist n u t :=
        fun he => htu (cdist_inj hun hwn ht he).symm
      have hadd := cdist_add (c := cnext n j) (hhome k) hun (by omega)
      have hnu : cnext n j ≠ u := by
        intro he; rw [he, cdist_self] at hsucc; omega
      exact h t k ht hs (cnext n j) hwn hnu (by omega) hu
  · exact h t k ht hs u hun hui hlt

end Runs

/-! ## What a ring of slots holds -/

section Contents

variable {α : Type}

/-- The contents of the slots below `n`, in slot order. -/
def contents (n : Nat) (slot : Nat → Option α) : List α := (List.range n).filterMap slot

theorem mem_contents {n : Nat} {slot : Nat → Option α} {x : α} :
    x ∈ contents n slot ↔ ∃ i, i < n ∧ slot i = some x := by
  simp [contents]

theorem contents_succ (n : Nat) (slot : Nat → Option α) :
    contents (n + 1) slot = contents n slot ++ (slot n).toList := by
  unfold contents
  rw [List.range_succ, List.filterMap_append]
  cases h : slot n <;> simp [h]

theorem contents_update_ge {n i : Nat} (slot : Nat → Option α) (o : Option α) (h : n ≤ i) :
    contents n (Function.update slot i o) = contents n slot := by
  unfold contents
  refine List.filterMap_congr fun t ht => ?_
  rw [Function.update_of_ne]
  have := List.mem_range.mp ht
  omega

/-- Filling an unused slot adds one entry. -/
theorem contents_fill {n i : Nat} {slot : Nat → Option α} (x : α) (hi : i < n) (hs : slot i = none) :
    (contents n (Function.update slot i (some x))).Perm (x :: contents n slot) := by
  induction n with
  | zero => omega
  | succ n ih =>
      rw [contents_succ, contents_succ]
      by_cases hin : i = n
      · subst hin
        rw [contents_update_ge slot _ (Nat.le_refl _), hs]
        simp only [Function.update_self, Option.toList_some, Option.toList_none, List.append_nil]
        exact (List.perm_append_singleton x _)
      · rw [Function.update_of_ne (by omega)]
        exact (ih (by omega)).append_right _

/-- Clearing a used slot removes one entry. -/
theorem contents_clear {n i : Nat} {slot : Nat → Option α} {x : α} (hi : i < n) (hs : slot i = some x) :
    (contents n slot).Perm (x :: contents n (Function.update slot i none)) := by
  have h := contents_fill x hi (Function.update_self i none slot)
  rwa [Function.update_idem, ← hs, Function.update_eq_self] at h

/-- Moving an entry to an unused slot keeps the contents. -/
theorem contents_move {n i j : Nat} {slot : Nat → Option α} {x : α} (hi : i < n) (hj : j < n)
    (hij : i ≠ j) (hsi : slot i = none) (hsj : slot j = some x) :
    (contents n (Function.update (Function.update slot i (some x)) j none)).Perm (contents n slot) := by
  have h1 : (contents n (Function.update slot i (some x))).Perm
      (x :: contents n (Function.update (Function.update slot i (some x)) j none)) :=
    contents_clear hj (by rw [Function.update_of_ne (Ne.symm hij)]; exact hsj)
  exact ((h1.symm.trans (contents_fill x hi hsi)).cons_inv)

/-- Overwriting a used slot replaces its entry. -/
theorem contents_set {n i : Nat} {slot : Nat → Option α} {x : α} (y : α) (hi : i < n)
    (hs : slot i = some x) :
    ∃ rest, (contents n slot).Perm (x :: rest) ∧
      (contents n (Function.update slot i (some y))).Perm (y :: rest) := by
  refine ⟨contents n (Function.update slot i none), contents_clear hi hs, ?_⟩
  have h := contents_fill y hi (Function.update_self i none slot)
  rwa [Function.update_idem] at h

theorem contents_const_none (n : Nat) : contents n (fun _ => (none : Option α)) = [] := by
  simp [contents]

end Contents

end SlickPerfmon.Library
