import Mathlib.Data.List.Nodup
import Mathlib.Logic.Function.Basic

/-!
# Things in custody

Things are issued to holders, passed from holder to holder and given back. However they travel, a thing that is out
has one holder, and one that is not has been given back once.
-/

namespace SlickPerfmon.Library

structure Custody (H R : Type) where
  held : H → Option R
  issued : List R
  returned : List R

namespace Custody

variable {H R : Type}

def empty : Custody H R := ⟨fun _ => none, [], []⟩

variable [DecidableEq H]

def issue (c : Custody H R) (x : H) (r : R) : Custody H R :=
  { c with held := Function.update c.held x (some r), issued := c.issued ++ [r] }

/-- What `y` holds, if anything, goes to `x`. -/
def pass (c : Custody H R) (x y : H) : Custody H R :=
  { c with held := Function.update (Function.update c.held y none) x (c.held y) }

def giveBack (c : Custody H R) (x : H) : Custody H R :=
  { c with held := Function.update c.held x none, returned := c.returned ++ (c.held x).toList }

/-- No thing is in two hands, or lost, or given back twice. -/
structure Sound (c : Custody H R) : Prop where
  one : ∀ x y r, c.held x = some r → c.held y = some r → x = y
  out : ∀ x r, c.held x = some r → r ∈ c.issued ∧ r ∉ c.returned
  settled : ∀ r ∈ c.issued, (∃ x, c.held x = some r) ∨ r ∈ c.returned
  known : ∀ r ∈ c.returned, r ∈ c.issued
  once : c.returned.Nodup

omit [DecidableEq H] in
theorem Sound.empty : (empty : Custody H R).Sound where
  one x y r h := by cases h
  out x r h := by cases h
  settled r h := by cases h
  known r h := by cases h
  once := List.nodup_nil

variable {c : Custody H R}

/-! ## The steps -/

theorem issue_held {x z : H} {r q : R} :
    (c.issue x r).held z = some q ↔ (z = x ∧ q = r) ∨ (z ≠ x ∧ c.held z = some q) := by
  by_cases hzx : z = x
  · subst hzx
    simp [issue, eq_comm]
  · simp [issue, hzx]

theorem Sound.issue {x : H} {r : R} (h : c.Sound) (hx : c.held x = none) (hr : r ∉ c.issued) : (c.issue x r).Sound where
  one z w q hz hw := by
    rw [issue_held] at hz hw
    rcases hz with ⟨rfl, rfl⟩ | ⟨_, hz⟩
    · rcases hw with ⟨rfl, _⟩ | ⟨_, hw⟩
      · rfl
      · exact absurd (h.out w q hw).1 hr
    · rcases hw with ⟨rfl, rfl⟩ | ⟨_, hw⟩
      · exact absurd (h.out z q hz).1 hr
      · exact h.one z w q hz hw
  out z q hz := by
    rcases issue_held.mp hz with ⟨rfl, rfl⟩ | ⟨_, hz⟩
    · exact ⟨List.mem_append_right _ (List.mem_singleton_self q), fun hret => hr (h.known q hret)⟩
    · exact ⟨List.mem_append_left _ (h.out z q hz).1, (h.out z q hz).2⟩
  settled q hq := by
    rcases List.mem_append.mp hq with hold | hnew
    · rcases h.settled q hold with ⟨z, hz⟩ | hret
      · have hzx : z ≠ x := by
          rintro rfl
          rw [hx] at hz
          cases hz
        exact Or.inl ⟨z, issue_held.mpr (Or.inr ⟨hzx, hz⟩)⟩
      · exact Or.inr hret
    · exact Or.inl ⟨x, issue_held.mpr (Or.inl ⟨rfl, List.mem_singleton.mp hnew⟩)⟩
  known q hq := List.mem_append_left _ (h.known q hq)
  once := h.once

/-- After a pass every thing is held where the old holder of it went. -/
theorem pass_held {x y z : H} {r : R} :
    (c.pass x y).held z = some r ↔ (z = x ∧ c.held y = some r) ∨ (z ≠ x ∧ z ≠ y ∧ c.held z = some r) := by
  by_cases hzx : z = x
  · subst hzx
    simp [pass]
  · by_cases hzy : z = y
    · subst hzy
      simp [pass, hzx]
    · simp [pass, hzx, hzy]

theorem Sound.pass {x : H} (h : c.Sound) (hx : c.held x = none) (y : H) : (c.pass x y).Sound where
  one z w r hz hw := by
    rw [pass_held] at hz hw
    rcases hz with ⟨rfl, hz⟩ | ⟨_, hzy, hz⟩
    · rcases hw with ⟨rfl, _⟩ | ⟨_, hwy, hw⟩
      · rfl
      · exact absurd (h.one w y r hw hz) hwy
    · rcases hw with ⟨rfl, hw⟩ | ⟨_, _, hw⟩
      · exact absurd (h.one z y r hz hw) hzy
      · exact h.one z w r hz hw
  out z r hz := by
    rw [pass_held] at hz
    rcases hz with ⟨_, hz⟩ | ⟨_, _, hz⟩
    · exact h.out y r hz
    · exact h.out z r hz
  settled r hr := by
    rcases h.settled r hr with ⟨z, hz⟩ | hret
    · left
      by_cases hzy : z = y
      · subst hzy
        exact ⟨x, pass_held.mpr (Or.inl ⟨rfl, hz⟩)⟩
      · have hzx : z ≠ x := by
          rintro rfl
          rw [hx] at hz
          cases hz
        exact ⟨z, pass_held.mpr (Or.inr ⟨hzx, hzy, hz⟩)⟩
    · exact Or.inr hret
  known := h.known
  once := h.once

theorem giveBack_held {x z : H} {r : R} : (c.giveBack x).held z = some r ↔ z ≠ x ∧ c.held z = some r := by
  by_cases hzx : z = x
  · subst hzx
    simp [giveBack]
  · simp [giveBack, hzx]

theorem Sound.giveBack (h : c.Sound) (x : H) : (c.giveBack x).Sound where
  one z w r hz hw := h.one z w r (giveBack_held.mp hz).2 (giveBack_held.mp hw).2
  out z r hz := by
    obtain ⟨hzx, hz⟩ := giveBack_held.mp hz
    refine ⟨(h.out z r hz).1, ?_⟩
    rw [Custody.giveBack, List.mem_append, not_or, Option.mem_toList]
    exact ⟨(h.out z r hz).2, fun hx => hzx (h.one z x r hz hx)⟩
  settled r hr := by
    rcases h.settled r hr with ⟨z, hz⟩ | hret
    · by_cases hzx : z = x
      · subst hzx
        exact Or.inr (List.mem_append_right _ (Option.mem_toList.mpr hz))
      · exact Or.inl ⟨z, giveBack_held.mpr ⟨hzx, hz⟩⟩
    · exact Or.inr (List.mem_append_left _ hret)
  known r hr := by
    rcases List.mem_append.mp hr with hold | hnew
    · exact h.known r hold
    · exact (h.out x r (Option.mem_toList.mp hnew)).1
  once := by
    refine List.Nodup.append h.once ?_ ?_
    · cases c.held x with
      | none => exact List.nodup_nil
      | some r => exact List.nodup_singleton r
    · intro r hret hx
      exact (h.out x r (Option.mem_toList.mp hx)).2 hret

/-! ## What every run of them leaves -/

omit [DecidableEq H]

/-- A thing that is out has one holder. -/
theorem Sound.existsUnique (h : c.Sound) {r : R} (hr : r ∈ c.issued) (hret : r ∉ c.returned) :
    ∃! x, c.held x = some r := by
  obtain ⟨x, hx⟩ := (h.settled r hr).resolve_right hret
  exact ⟨x, hx, fun y hy => h.one y x r hy hx⟩

/-- When nobody holds anything, everything was given back. -/
theorem Sound.mem_returned (h : c.Sound) (hnone : ∀ x, c.held x = none) {r : R} (hr : r ∈ c.issued) :
    r ∈ c.returned := by
  refine (h.settled r hr).resolve_left ?_
  rintro ⟨x, hx⟩
  rw [hnone x] at hx
  cases hx

end Custody

end SlickPerfmon.Library
