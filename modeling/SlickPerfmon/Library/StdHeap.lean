import Mathlib.Data.List.Sort
import Mathlib.Data.List.Perm.Basic

/-!
# The heap operations of a standard library

`make_heap`, `push_heap`, `pop_heap` and `sort_heap` are specified by what they leave: a permutation of the
range that is a heap under the comparator. Which of several equal elements ends up where is the library's
choice, so a conforming library is a parameter, and its choice may depend on the number of the call.
-/

namespace SlickPerfmon.Library

variable {α : Type}

/-- Heap order: no parent precedes its child under `comp`. The greatest element is at the front. -/
def IsHeap (comp : α → α → Bool) (l : List α) : Prop :=
  ∀ (i : Nat) (a b : α), 0 < i → l[i]? = some a → l[(i - 1) / 2]? = some b → comp b a = false

/-- What the standard asks of a comparator: a strict weak order. -/
structure StrictWeak (comp : α → α → Bool) : Prop where
  asymm : ∀ a b, comp a b = true → comp b a = false
  negTrans : ∀ a b c, comp a b = false → comp b c = false → comp a c = false

/-- Comparing by a key in a linear order is a strict weak order. -/
theorem StrictWeak.ofKey {β : Type} [LinearOrder β] (key : α → β) :
    StrictWeak (fun a b => decide (key a < key b)) where
  asymm a b h := by simp only [decide_eq_true_eq, decide_eq_false_iff_not, not_lt] at *; exact h.le
  negTrans a b c h₁ h₂ := by
    simp only [decide_eq_false_iff_not, not_lt] at *
    exact h₂.trans h₁

/-- No element of a heap is after its front. -/
theorem IsHeap.front {comp : α → α → Bool} (hc : StrictWeak comp) {front : α} {rest : List α}
    (h : IsHeap comp (front :: rest)) : ∀ x ∈ front :: rest, comp front x = false := by
  have hat : ∀ (i : Nat) (x : α), (front :: rest)[i]? = some x → comp front x = false := by
    intro i
    induction i using Nat.strongRecOn with
    | ind i ih =>
        intro x hx
        rcases Nat.eq_zero_or_pos i with rfl | hpos
        · simp only [List.getElem?_cons_zero, Option.some.injEq] at hx
          subst hx
          cases hf : comp front front
          · rfl
          · rw [hc.asymm _ _ hf] at hf; cases hf
        · have hlen : (i - 1) / 2 < (front :: rest).length := by
            have := (List.getElem?_eq_some_iff.mp hx).1
            omega
          have hp := List.getElem?_eq_getElem hlen
          exact hc.negTrans _ _ _ (ih _ (by omega) _ hp) (h i x _ hpos hx hp)
  intro x hx
  obtain ⟨i, hi⟩ := List.mem_iff_getElem?.mp hx
  exact hat i x hi

/-- A list in descending order is a heap. -/
theorem IsHeap.of_sorted {comp : α → α → Bool} {l : List α}
    (h : l.Pairwise (fun a b => comp a b = false)) : IsHeap comp l := by
  intro i a b hi ha hb
  obtain ⟨hia, rfl⟩ := List.getElem?_eq_some_iff.mp ha
  obtain ⟨hib, rfl⟩ := List.getElem?_eq_some_iff.mp hb
  exact List.pairwise_iff_getElem.mp h _ _ hib hia (by omega)

/-- Only the order of the elements that are there matters. -/
theorem IsHeap.congr {comp comp' : α → α → Bool} {l : List α} (h : IsHeap comp l)
    (hsame : ∀ a ∈ l, ∀ b ∈ l, comp b a = comp' b a) : IsHeap comp' l := by
  intro i a b hi ha hb
  rw [← hsame a (List.mem_of_getElem? ha) b (List.mem_of_getElem? hb)]
  exact h i a b hi ha hb

/-- An element may be replaced by one that compares the same. -/
theorem IsHeap.set {comp : α → α → Bool} {l : List α} (h : IsHeap comp l) {i : Nat} {x y : α} (hx : l[i]? = some x)
    (hsame : ∀ z, comp y z = comp x z ∧ comp z y = comp z x) : IsHeap comp (l.set i y) := by
  have hlt := (List.getElem?_eq_some_iff.mp hx).1
  -- every element of the new list stands for one of the old that compares the same
  have hold : ∀ (j : Nat) z, (l.set i y)[j]? = some z → ∃ z', l[j]? = some z' ∧
      ∀ w, comp z w = comp z' w ∧ comp w z = comp w z' := by
    intro j z hz
    by_cases hij : i = j
    · subst hij
      rw [List.getElem?_set_self hlt] at hz
      cases hz
      exact ⟨x, hx, hsame⟩
    · rw [List.getElem?_set_ne hij] at hz
      exact ⟨z, hz, fun _ => ⟨rfl, rfl⟩⟩
  intro j a b hj ha hb
  obtain ⟨a', ha', haw⟩ := hold j a ha
  obtain ⟨b', hb', hbw⟩ := hold _ b hb
  rw [(hbw a).1, (haw b').2]
  exact h j a' b' hj ha' hb'

/-- A conforming implementation: what it arranges is a heap of the same elements. -/
structure HeapLib where
  arrange : {α : Type} → (α → α → Bool) → Nat → List α → List α
  perm : ∀ {α : Type} {comp : α → α → Bool}, StrictWeak comp → ∀ (n : Nat) (l : List α),
    (arrange comp n l).Perm l
  heap : ∀ {α : Type} {comp : α → α → Bool}, StrictWeak comp → ∀ (n : Nat) (l : List α),
    IsHeap comp (arrange comp n l)

namespace HeapLib

variable (H : HeapLib) {α : Type} (comp : α → α → Bool) (n : Nat)

def makeHeap (l : List α) : List α := H.arrange comp n l

/-- The last element joins the heap in front of it. -/
def pushHeap (l : List α) : List α := H.arrange comp n l

/-- The front moves to the back, and the rest is a heap again. -/
def popHeap : List α → List α
  | [] => []
  | front :: rest => H.arrange comp n rest ++ [front]

/-- `pop_heap` over ever shorter ranges, the first of them call `n`. -/
def sortHeap : Nat → Nat → List α → List α
  | _, 0, l => l
  | _, _ + 1, [] => []
  | n, k + 1, front :: rest => sortHeap (n + 1) k (H.arrange comp n rest) ++ [front]

variable {comp}

theorem popHeap_perm (hc : StrictWeak comp) (l : List α) : (H.popHeap comp n l).Perm l := by
  cases l with
  | nil => exact List.Perm.refl _
  | cons front rest =>
      exact (List.perm_append_singleton front _).trans ((H.perm hc n rest).cons front)

theorem sortHeap_perm (hc : StrictWeak comp) (k : Nat) (l : List α) : (H.sortHeap comp n k l).Perm l := by
  induction k generalizing n l with
  | zero => exact List.Perm.refl _
  | succ k ih =>
      cases l with
      | nil => exact List.Perm.refl _
      | cons front rest =>
          exact (List.perm_append_singleton front _).trans
            (((ih (n + 1) _).trans (H.perm hc n rest)).cons front)

/-- Sorting a heap leaves it in ascending order. -/
theorem sortHeap_sorted (hc : StrictWeak comp) (k : Nat) {l : List α} (hk : l.length ≤ k) (h : IsHeap comp l) :
    (H.sortHeap comp n k l).Pairwise fun a b => comp b a = false := by
  induction k generalizing n l with
  | zero =>
      rw [List.length_eq_zero_iff.mp (Nat.le_zero.mp hk)]
      exact List.Pairwise.nil
  | succ k ih =>
      cases l with
      | nil => exact List.Pairwise.nil
      | cons front rest =>
          have hperm := H.perm hc n rest
          rw [List.length_cons, Nat.succ_le_succ_iff] at hk
          refine List.pairwise_append.mpr ⟨ih (n + 1) (by rw [hperm.length_eq]; exact hk) (H.heap hc n rest),
            List.pairwise_singleton _ _, fun a ha b hb => ?_⟩
          rw [List.mem_singleton.mp hb]
          have hmem := hperm.mem_iff.mp ((H.sortHeap_perm (n + 1) hc k _).mem_iff.mp ha)
          exact h.front hc a (List.mem_cons_of_mem _ hmem)

end HeapLib

/-! ## A library that sorts -/

theorem insertionSort_pairwise {comp : α → α → Bool} (hc : StrictWeak comp) (l : List α) :
    (l.insertionSort (fun a b => comp a b = false)).Pairwise (fun a b => comp a b = false) := by
  have : Std.Total (fun a b => comp a b = false) :=
    ⟨fun a b => by
      cases h : comp a b
      · exact Or.inl rfl
      · exact Or.inr (hc.asymm a b h)⟩
  have : IsTrans α (fun a b => comp a b = false) := ⟨hc.negTrans⟩
  exact List.pairwise_insertionSort _ l

/-- Sorting conforms: a descending range is a heap. -/
def sortingLib : HeapLib where
  arrange comp _ l := l.insertionSort (fun a b => comp a b = false)
  perm _ _ l := List.perm_insertionSort _ l
  heap hc _ l := IsHeap.of_sorted (insertionSort_pairwise hc l)

/-! ## Libraries made up -/

section Made

variable {β : Type}

variable (H : HeapLib) {last n : Nat} {planned : List β}

end Made

end SlickPerfmon.Library
