import Mathlib.Logic.Function.Basic

/-!
# Transition systems with executable steps

A system is a step function on labelled actions; a step that is not enabled gives `none`. What holds at the
start and is kept by every step holds of every reachable state.
-/

namespace SlickPerfmon.Library

structure System (State Action : Type) where
  Init : State → Prop
  step : Action → State → Option State

namespace System

variable {State Action : Type} (M : System State Action)

/-- The states of all runs, of every interleaving. -/
inductive Reachable : State → Prop
  | init {s : State} (h : M.Init s) : Reachable s
  | step {s s' : State} (a : Action) (hs : Reachable s) (h : M.step a s = some s') : Reachable s'

/-- The states of the runs that go on from `s`. -/
inductive Runs (s : State) : State → Prop
  | refl : Runs s s
  | step {s₁ s₂ : State} (a : Action) (hs : Runs s s₁) (h : M.step a s₁ = some s₂) : Runs s s₂

/-- A run along given actions. -/
def run : List Action → State → Option State
  | [], s => some s
  | a :: as, s => (M.step a s).bind (run as)

variable {M}

theorem Reachable.invariant {I : State → Prop} (h0 : ∀ s, M.Init s → I s)
    (hstep : ∀ a s s', I s → M.step a s = some s' → I s') {s : State} (hs : M.Reachable s) : I s := by
  induction hs with
  | init h => exact h0 _ h
  | step a _ h ih => exact hstep a _ _ ih h

/-- A relation that every step keeps holds along every run. -/
theorem Runs.preserves {R : State → State → Prop} (hrefl : ∀ s, R s s)
    (htrans : ∀ s₁ s₂ s₃, R s₁ s₂ → R s₂ s₃ → R s₁ s₃)
    (hstep : ∀ a s s', M.Reachable s → M.step a s = some s' → R s s') {s s' : State} (hs : M.Reachable s)
    (h : M.Runs s s') : M.Reachable s' ∧ R s s' := by
  induction h with
  | refl => exact ⟨hs, hrefl _⟩
  | step a _ h ih => exact ⟨.step a ih.1 h, htrans _ _ _ ih.2 (hstep a _ _ ih.1 h)⟩

theorem Reachable.run {s s' : State} (hs : M.Reachable s) {as : List Action} (h : M.run as s = some s') :
    M.Reachable s' := by
  induction as generalizing s with
  | nil => cases h; exact hs
  | cons a as ih =>
      rw [System.run, Option.bind_eq_some_iff] at h
      obtain ⟨s₁, h₁, h₂⟩ := h
      exact ih (.step a hs h₁) h₂

theorem Runs.trans {s s₁ s₂ : State} (h : M.Runs s s₁) (h' : M.Runs s₁ s₂) : M.Runs s s₂ := by
  induction h' with
  | refl => exact h
  | step a _ hstep ih => exact .step a ih hstep

theorem Runs.of_run {s s' : State} {as : List Action} (h : M.run as s = some s') : M.Runs s s' := by
  induction as generalizing s with
  | nil => cases h; exact .refl
  | cons a as ih =>
      rw [System.run, Option.bind_eq_some_iff] at h
      obtain ⟨s₁, h₁, h₂⟩ := h
      exact (Runs.step a .refl h₁).trans (ih h₂)

/-- An action that lowers a rank which no other action raises is taken at most that often. -/
theorem run_count_le [DecidableEq Action] (rank : State → Nat) {a : Action}
    (hown : ∀ s s', M.step a s = some s' → rank s' < rank s)
    (hother : ∀ b s s', b ≠ a → M.step b s = some s' → rank s' ≤ rank s) {as : List Action} {s s' : State}
    (h : M.run as s = some s') : as.count a + rank s' ≤ rank s := by
  induction as generalizing s with
  | nil => cases h; simp
  | cons b as ih =>
      rw [System.run, Option.bind_eq_some_iff] at h
      obtain ⟨s₁, h₁, h₂⟩ := h
      have hrest := ih h₂
      by_cases hb : b = a
      · subst hb
        have := hown _ _ h₁
        rw [List.count_cons_self]
        omega
      · have := hother _ _ _ hb h₁
        rw [List.count_cons_of_ne hb]
        omega

variable (M) in
/-- The run meets a state with `Q` on its way. -/
def Meets (Q : State → Prop) : List Action → State → Prop
  | [], s => Q s
  | a :: as, s => Q s ∨ ∃ s', M.step a s = some s' ∧ Meets Q as s'

theorem Meets.append {Q : State → Prop} {as : List Action} {s : State} (h : M.Meets Q as s) (bs : List Action) :
    M.Meets Q (as ++ bs) s := by
  induction as generalizing s with
  | nil =>
      cases bs with
      | nil => exact h
      | cons b bs => exact .inl h
  | cons a as ih =>
      obtain h | ⟨s', hs, h⟩ := h
      · exact .inl h
      · exact .inr ⟨s', hs, ih h⟩

theorem Meets.behind {Q : State → Prop} {as bs : List Action} {s s' : State} (hs : M.run as s = some s')
    (h : M.Meets Q bs s') : M.Meets Q (as ++ bs) s := by
  induction as generalizing s with
  | nil =>
      cases hs
      exact h
  | cons a as ih =>
      rw [System.run, Option.bind_eq_some_iff] at hs
      obtain ⟨s₁, h₁, h₂⟩ := hs
      exact .inr ⟨s₁, h₁, ih h₂⟩

/-- What every step keeps unless it brings about `Q` holds in the end unless the run met `Q`. -/
theorem run_unless {I Q : State → Prop} {C : Action → Prop}
    (hstep : ∀ a s s', C a → I s → M.step a s = some s' → I s' ∨ Q s') {as : List Action} {s s' : State}
    (h : M.run as s = some s') (hC : ∀ a ∈ as, C a) (hI : I s) : I s' ∨ M.Meets Q as s := by
  induction as generalizing s with
  | nil =>
      cases h
      exact .inl hI
  | cons a as ih =>
      rw [System.run, Option.bind_eq_some_iff] at h
      obtain ⟨s₁, h₁, h₂⟩ := h
      obtain hI₁ | hQ := hstep a s s₁ (hC a List.mem_cons_self) hI h₁
      · exact (ih h₂ (fun b hb => hC b (List.mem_cons_of_mem _ hb)) hI₁).imp_right fun h => .inr ⟨s₁, h₁, h⟩
      · refine .inr (.inr ⟨s₁, h₁, ?_⟩)
        cases as with
        | nil => exact hQ
        | cons b as => exact .inl hQ

/-- The runs all of whose steps meet a condition on the state before the step. -/
def restrict (M : System State Action) (C : Action → State → Prop) [∀ a s, Decidable (C a s)] :
    System State Action where
  Init := M.Init
  step a s := if C a s then M.step a s else none

theorem restrict_step {C : Action → State → Prop} [∀ a s, Decidable (C a s)] {a : Action} {s s' : State} :
    (M.restrict C).step a s = some s' ↔ C a s ∧ M.step a s = some s' := by
  unfold restrict
  simp only
  split
  · rename_i hc; exact ⟨fun h => ⟨hc, h⟩, fun h => h.2⟩
  · rename_i hc; exact ⟨nofun, fun h => absurd h.1 hc⟩

end System

end SlickPerfmon.Library
