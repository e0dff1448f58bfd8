import Mathlib.Data.List.Perm.Basic

/-!
# Interleavings

A trace interleaves some lanes when it takes them apart from the front, one element of one lane at a time.
-/

namespace SlickPerfmon.Library

variable {α : Type}

inductive Interleaves : List (List α) → List α → Prop
  | done {lanes : List (List α)} : (∀ l ∈ lanes, l = []) → Interleaves lanes []
  | step {lanes : List (List α)} {trace : List α} {i : Nat} {x : α} {l : List α} :
      lanes[i]? = some (x :: l) → Interleaves (lanes.set i l) trace → Interleaves lanes (x :: trace)

/-- A change of one lane that a map does not see. -/
theorem map_set_of_eq {γ β : Type} {f : γ → β} {lanes : List γ} {i : Nat} {l l' : γ}
    (hi : lanes[i]? = some l) (h : f l' = f l) : (lanes.set i l').map f = lanes.map f := by
  refine List.ext_getElem? fun j => ?_
  rw [List.getElem?_map, List.getElem?_map]
  by_cases hij : i = j
  · subst hij
    rw [List.getElem?_set_self (List.getElem?_eq_some_iff.mp hi).1, hi, Option.map_some, Option.map_some, h]
  · rw [List.getElem?_set_ne hij]

theorem set_of_getElem? {γ : Type} {lanes : List γ} {i : Nat} {l : γ} (hi : lanes[i]? = some l) :
    lanes.set i l = lanes := by
  obtain ⟨hlt, rfl⟩ := List.getElem?_eq_some_iff.mp hi
  exact List.set_getElem_self hlt

namespace Interleaves

variable {lanes : List (List α)} {trace : List α}

theorem append {i : Nat} {front l : List α} (hi : lanes[i]? = some (front ++ l))
    (h : Interleaves (lanes.set i l) trace) : Interleaves lanes (front ++ trace) := by
  induction front generalizing lanes with
  | nil =>
      rw [List.nil_append] at hi
      rw [set_of_getElem? hi] at h
      exact h
  | cons x front ih =>
      refine .step hi (ih ?_ ?_)
      · rw [List.getElem?_set_self (List.getElem?_eq_some_iff.mp hi).1]
        rfl
      · rw [List.set_set]
        exact h

theorem map {β : Type} (f : α → β) (h : Interleaves lanes trace) :
    Interleaves (lanes.map (List.map f)) (trace.map f) := by
  induction h with
  | done hall =>
      refine .done fun l hl => ?_
      obtain ⟨l', hl', rfl⟩ := List.mem_map.mp hl
      rw [hall l' hl']
      rfl
  | @step lanes trace i x l hi _ ih =>
      rw [List.map_set] at ih
      refine .step ?_ ih
      rw [List.getElem?_map, hi]
      rfl

/-- A lane is what the trace has of it. -/
theorem filter (h : Interleaves lanes trace) {i : Nat} {l : List α} (hi : lanes[i]? = some l) {p : α → Bool}
    (hin : ∀ x ∈ l, p x = true)
    (hout : ∀ j l', j ≠ i → lanes[j]? = some l' → ∀ x ∈ l', p x = false) : trace.filter p = l := by
  induction h generalizing l with
  | done hall =>
      rw [hall l (List.mem_of_getElem? hi)]
      rfl
  | @step lanes trace j x tl hj _ ih =>
      have hlt := (List.getElem?_eq_some_iff.mp hj).1
      by_cases hji : j = i
      · subst hji
        cases hj.symm.trans hi
        rw [List.filter_cons_of_pos (hin x List.mem_cons_self)]
        congr 1
        refine ih (List.getElem?_set_self hlt) (fun y hy => hin y (List.mem_cons_of_mem _ hy)) ?_
        intro k l' hk hl'
        rw [List.getElem?_set_ne hk.symm] at hl'
        exact hout k l' hk hl'
      · rw [List.filter_cons_of_neg (by rw [hout j _ hji hj x List.mem_cons_self]; simp)]
        refine ih (by rw [List.getElem?_set_ne hji]; exact hi) hin ?_
        intro k l' hk hl'
        by_cases hkj : j = k
        · subst hkj
          rw [List.getElem?_set_self hlt] at hl'
          cases hl'
          exact fun y hy => hout j _ hk hj y (List.mem_cons_of_mem _ hy)
        · rw [List.getElem?_set_ne hkj] at hl'
          exact hout k l' hk hl'

theorem mem (h : Interleaves lanes trace) {x : α} (hx : x ∈ trace) : ∃ l ∈ lanes, x ∈ l := by
  induction h with
  | done _ => cases hx
  | @step lanes trace j y tl hj _ ih =>
      have hmem := List.mem_of_getElem? hj
      rcases List.mem_cons.mp hx with rfl | hx
      · exact ⟨_, hmem, List.mem_cons_self⟩
      · obtain ⟨l, hl, hxl⟩ := ih hx
        rcases List.mem_or_eq_of_mem_set hl with hl | rfl
        · exact ⟨l, hl, hxl⟩
        · exact ⟨_, hmem, List.mem_cons_of_mem _ hxl⟩

end Interleaves

end SlickPerfmon.Library
