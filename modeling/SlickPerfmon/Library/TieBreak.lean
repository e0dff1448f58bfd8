import SlickPerfmon.Library.Interleave
import Mathlib.Order.Lattice

/-!
# Merging with a tie-break

Lanes are merged by key into a state. Of the next elements with the least key one that the state takes cleanly goes
first; where several are clean, or none is, any of them may go.
-/

namespace SlickPerfmon.Library

/-- What is merged: how an element changes the state, whether the state takes it cleanly, and its key. -/
structure TieBreak (σ α κ : Type) where
  feed : σ → α → σ
  clean : σ → α → Bool
  key : α → κ

namespace TieBreak

variable {σ α κ : Type} (G : TieBreak σ α κ)

/-! ## Orders that are clean throughout -/

/-- What is in the lanes is taken cleanly in some order, which ends at `s'`. -/
inductive ClearsTo : σ → List (List α) → σ → Prop
  | done {s : σ} {lanes : List (List α)} : (∀ l ∈ lanes, l = []) → ClearsTo s lanes s
  | step {s s' : σ} {lanes : List (List α)} {i : Nat} {x : α} {l : List α} :
      lanes[i]? = some (x :: l) → G.clean s x = true → ClearsTo (G.feed s x) (lanes.set i l) s' →
      ClearsTo s lanes s'

/-- What is in the lanes has a clean order. -/
def Clears (s : σ) (lanes : List (List α)) : Prop := ∃ s', G.ClearsTo s lanes s'

/-- Taking clean elements only can lead to where none of the next ones is clean. -/
inductive GetsStuck : σ → List (List α) → Prop
  | here {s : σ} {lanes : List (List α)} {i : Nat} {x : α} {l : List α} :
      lanes[i]? = some (x :: l) →
      (∀ (j : Nat) (y : α) (l' : List α), lanes[j]? = some (y :: l') → G.clean s y = false) → GetsStuck s lanes
  | step {s : σ} {lanes : List (List α)} {i : Nat} {x : α} {l : List α} :
      lanes[i]? = some (x :: l) → G.clean s x = true → GetsStuck (G.feed s x) (lanes.set i l) → GetsStuck s lanes

section Clean

variable {G} {s : σ} {lanes : List (List α)}

theorem Clears.done (h : ∀ l ∈ lanes, l = []) : G.Clears s lanes := ⟨s, .done h⟩

theorem Clears.step {i : Nat} {x : α} {l : List α} (hi : lanes[i]? = some (x :: l)) (hclean : G.clean s x = true)
    (h : G.Clears (G.feed s x) (lanes.set i l)) : G.Clears s lanes := by
  obtain ⟨s', hs'⟩ := h
  exact ⟨s', .step hi hclean hs'⟩

variable {τ : Type} {G' : TieBreak τ α κ}

/-- States that `R` relates take the same elements of the lanes cleanly, and stay related as they do. -/
structure Matches (G : TieBreak σ α κ) (G' : TieBreak τ α κ) (R : σ → τ → List (List α) → Prop) : Prop where
  clean : ∀ {s : σ} {u : τ} {lanes : List (List α)} {i : Nat} {x : α} {l : List α}, R s u lanes →
    lanes[i]? = some (x :: l) → G.clean s x = G'.clean u x
  feed : ∀ {s : σ} {u : τ} {lanes : List (List α)} {i : Nat} {x : α} {l : List α}, R s u lanes →
    lanes[i]? = some (x :: l) → G.clean s x = true → R (G.feed s x) (G'.feed u x) (lanes.set i l)

namespace Matches

variable {R : σ → τ → List (List α) → Prop} {u : τ}

theorem symm (h : Matches G G' R) : Matches G' G fun u s lanes => R s u lanes where
  clean hR hi := (h.clean hR hi).symm
  feed hR hi hclean := h.feed hR hi ((h.clean hR hi).trans hclean)

end Matches

end Clean

/-! ## The merge -/

variable [LinearOrder κ]

/-- `x`, the next element of lane `i`, may be merged next. -/
structure Next (s : σ) (lanes : List (List α)) (i : Nat) (x : α) (l : List α) : Prop where
  lane : lanes[i]? = some (x :: l)
  least : ∀ (j : Nat) (y : α) (l' : List α), lanes[j]? = some (y :: l') → G.key x ≤ G.key y
  tie : G.clean s x = true ∨
    ∀ (j : Nat) (y : α) (l' : List α), lanes[j]? = some (y :: l') → G.key y = G.key x → G.clean s y = false

/-- A part of a merge, with whether each element was clean when it was fed. -/
inductive Steps : σ → List (List α) → List (α × Bool) → σ → List (List α) → Prop
  | nil {s : σ} {lanes : List (List α)} : Steps s lanes [] s lanes
  | cons {s s' : σ} {lanes lanes' : List (List α)} {i : Nat} {x : α} {l : List α} {fed : List (α × Bool)} :
      G.Next s lanes i x l → Steps (G.feed s x) (lanes.set i l) fed s' lanes' →
      Steps s lanes ((x, G.clean s x) :: fed) s' lanes'

/-- No lane has an element below `t`. -/
def Due (t : κ) (lanes : List (List α)) : Prop :=
  ∀ (j : Nat) (y : α) (l' : List α), lanes[j]? = some (y :: l') → t ≤ G.key y

/-- The elements at `t`, lane by lane. -/
def atKey (t : κ) (lanes : List (List α)) : List (List α) :=
  lanes.map fun l => l.filter fun x => decide (G.key x = t)

/-- Each lane ascends. -/
def Ascends (lanes : List (List α)) : Prop := ∀ l ∈ lanes, l.Pairwise fun a b => G.key a ≤ G.key b

variable {G} {s s' : σ} {lanes lanes' : List (List α)} {i : Nat} {x : α} {l : List α} {t : κ}
  {fed : List (α × Bool)}

/-! ## Lanes -/

theorem Ascends.set (h : G.Ascends lanes) (hi : lanes[i]? = some (x :: l)) : G.Ascends (lanes.set i l) := by
  intro a ha
  rcases List.mem_or_eq_of_mem_set ha with ha | rfl
  · exact h a ha
  · exact (List.pairwise_cons.mp (h _ (List.mem_of_getElem? hi))).2

theorem Ascends.le (h : G.Ascends lanes) (hi : lanes[i]? = some (x :: l)) {y : α} (hy : y ∈ x :: l) :
    G.key x ≤ G.key y := by
  rcases List.mem_cons.mp hy with rfl | hy
  · exact le_refl _
  · exact (List.pairwise_cons.mp (h _ (List.mem_of_getElem? hi))).1 y hy

theorem Due.set (h : G.Due t lanes) (hasc : G.Ascends lanes) (hi : lanes[i]? = some (x :: l)) :
    G.Due t (lanes.set i l) := by
  intro j y l' hj
  by_cases hij : i = j
  · subst hij
    rw [List.getElem?_set_self (List.getElem?_eq_some_iff.mp hi).1] at hj
    cases hj
    exact (h i x _ hi).trans (hasc.le hi (List.mem_cons_of_mem _ List.mem_cons_self))
  · rw [List.getElem?_set_ne hij] at hj
    exact h j y l' hj

theorem getElem?_atKey (j : Nat) :
    (G.atKey t lanes)[j]? = lanes[j]?.map fun l => l.filter fun x => decide (G.key x = t) :=
  List.getElem?_map

theorem atKey_set (i : Nat) (l : List α) :
    G.atKey t (lanes.set i l) = (G.atKey t lanes).set i (l.filter fun x => decide (G.key x = t)) :=
  List.map_set

/-- An element at another key leaves what is at `t`. -/
theorem atKey_other (hi : lanes[i]? = some (x :: l)) (hx : G.key x ≠ t) :
    G.atKey t (lanes.set i l) = G.atKey t lanes := by
  refine map_set_of_eq hi (List.filter_cons_of_neg ?_).symm
  simpa using hx

/-- The next element at `t` of a lane that has nothing below is the lane's next element. -/
theorem head_of_atKey (hasc : G.Ascends lanes) (hdue : G.Due t lanes) (hi : (G.atKey t lanes)[i]? = some (x :: l)) :
    G.key x = t ∧ ∃ l', lanes[i]? = some (x :: l') ∧ l = l'.filter fun x => decide (G.key x = t) := by
  rw [getElem?_atKey] at hi
  obtain ⟨lane, hlane, hfilter⟩ := Option.map_eq_some_iff.mp hi
  have hmem : x ∈ lane.filter fun x => decide (G.key x = t) := by rw [hfilter]; exact List.mem_cons_self
  obtain ⟨hxl, hx⟩ := List.mem_filter.mp hmem
  have hx := of_decide_eq_true hx
  cases lane with
  | nil => cases hxl
  | cons y lane =>
      -- the lane's first element is at `t` too, so it is `x`
      have hy : G.key y = t := le_antisymm (hx ▸ hasc.le hlane hxl) (hdue i y lane hlane)
      rw [List.filter_cons_of_pos (by simpa using hy)] at hfilter
      cases hfilter
      exact ⟨hx, lane, hlane, rfl⟩

/-! ## Steps -/

theorem Steps.atKey (h : G.Steps s lanes fed s' lanes') (hbelow : ∀ e ∈ fed, G.key e.1 < t) :
    G.atKey t lanes' = G.atKey t lanes := by
  induction h with
  | nil => rfl
  | @cons s s' lanes lanes' i x l fed hnext _ ih =>
      have hx : G.key x < t := hbelow _ List.mem_cons_self
      rw [ih fun e he => hbelow e (List.mem_cons_of_mem _ he), atKey_other hnext.lane (ne_of_lt hx)]

theorem Steps.state (h : G.Steps s lanes fed s' lanes') : s' = fed.foldl (fun s e => G.feed s e.1) s := by
  induction h with
  | nil => rfl
  | cons _ _ ih => exact ih

/-- What is fed first is not below what is due. -/
theorem Steps.due {e : α × Bool} (h : G.Steps s lanes (e :: fed) s' lanes') (hdue : G.Due t lanes) :
    t ≤ G.key e.1 := by
  cases h with
  | cons hnext _ => exact hdue _ _ _ hnext.lane

/-! ## Ties -/

/-- Where there is no dead end, what is at `t` goes cleanly. -/
theorem Steps.clean (h : G.Steps s lanes fed s' lanes') (hasc : G.Ascends lanes) (hdue : G.Due t lanes)
    (hfree : ¬ G.GetsStuck s (G.atKey t lanes)) : ∀ e ∈ fed, G.key e.1 = t → e.2 = true := by
  induction h with
  | nil => intro e he; cases he
  | @cons s s' lanes lanes' i x l fed hnext hsteps ih =>
      have hdue' := hdue.set hasc hnext.lane
      intro e he het
      by_cases hx : G.key x = t
      · have hat : (G.atKey t lanes)[i]? = some (x :: l.filter fun x => decide (G.key x = t)) := by
          rw [getElem?_atKey, hnext.lane, Option.map_some, List.filter_cons_of_pos (by simpa using hx)]
        rcases hnext.tie with hclean | hdirty
        · have hfree' : ¬ G.GetsStuck (G.feed s x) (G.atKey t (lanes.set i l)) := fun hstuck => by
            rw [atKey_set] at hstuck
            exact hfree (.step hat hclean hstuck)
          rcases List.mem_cons.mp he with rfl | he
          · exact hclean
          · exact ih (hasc.set hnext.lane) hdue' hfree' e he het
        · -- the element taken is not clean, so none at `t` was
          refine absurd (.here hat fun j y l' hj => ?_) hfree
          obtain ⟨hy, l'', hj', -⟩ := head_of_atKey hasc hdue hj
          exact hdirty j y l'' hj' (hy.trans hx.symm)
      · have hnil : ∀ j y l', (G.atKey t lanes)[j]? ≠ some (y :: l') := fun j y l' hj => by
          obtain ⟨hy, l'', hj', -⟩ := head_of_atKey hasc hdue hj
          exact hx (le_antisymm (hy ▸ hnext.least j y l'' hj') (hdue i x l hnext.lane))
        have hfree' : ¬ G.GetsStuck (G.feed s x) (G.atKey t (lanes.set i l)) := fun hstuck => by
          rw [atKey_other hnext.lane hx] at hstuck
          cases hstuck with
          | here hj _ => exact hnil _ _ _ hj
          | step hj _ _ => exact hnil _ _ _ hj
        rcases List.mem_cons.mp he with rfl | he
        · exact absurd het hx
        · exact ih (hasc.set hnext.lane) hdue' hfree' e he het

/-- Where clean picks can get stuck, some merge feeds an element at `t` that is not clean. -/
theorem GetsStuck.steps (h : G.GetsStuck s (G.atKey t lanes)) (hasc : G.Ascends lanes) (hdue : G.Due t lanes) :
    ∃ fed s' lanes', G.Steps s lanes fed s' lanes' ∧ ∃ e ∈ fed, G.key e.1 = t ∧ e.2 = false := by
  generalize hat : G.atKey t lanes = tied at h
  induction h generalizing lanes with
  | @here s tied i x l hi hdirty =>
      subst hat
      obtain ⟨hx, l', hi', -⟩ := head_of_atKey hasc hdue hi
      have hnext : G.Next s lanes i x l' := by
        refine ⟨hi', fun j y l'' hj => hx ▸ hdue j y l'' hj, Or.inr fun j y l'' hj hy => ?_⟩
        refine hdirty j y (l''.filter fun x => decide (G.key x = t)) ?_
        rw [getElem?_atKey, hj, Option.map_some, List.filter_cons_of_pos (by simpa using hy.trans hx)]
      exact ⟨_, _, _, .cons hnext .nil, _, List.mem_cons_self, hx, hdirty i x l hi⟩
  | @step s tied i x l hi hclean hstuck ih =>
      subst hat
      obtain ⟨hx, l', hi', rfl⟩ := head_of_atKey hasc hdue hi
      have hnext : G.Next s lanes i x l' := ⟨hi', fun j y l'' hj => hx ▸ hdue j y l'' hj, Or.inl hclean⟩
      obtain ⟨fed, s', lanes', hsteps, e, he, het, hdirty⟩ := ih (hasc.set hi') (hdue.set hasc hi') (atKey_set i l')
      exact ⟨_, s', lanes', .cons hnext hsteps, e, List.mem_cons_of_mem _ he, het, hdirty⟩

end TieBreak

end SlickPerfmon.Library
