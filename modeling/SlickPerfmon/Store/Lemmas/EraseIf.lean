import SlickPerfmon.Store.Lemmas.Erase

/-!
# The scan of `erase_if`

A deletion moves entries backwards along the probe order that starts at the deleted slot, so no entry the scan has not
tested lands behind it: when the scan ends, every entry that is left was tested and kept.
-/

namespace SlickPerfmon.OpenMap

open Library

variable {V : Type}

/-- The loop of `erase_at` moves entries backwards, seen from the slot `i₀` where it started. -/
theorem eraseLoop_back {m : OpenMap V} (h : m.WF) {u i₀ : Nat} (hu : u < m.cap) (hi₀ : i₀ < m.cap) (fuel : Nat)
    {slots after : Nat → Option (UInt64 × V)} {i j : Nat} (hi : i < m.cap) (hj : j < m.cap) (hsu : slots u = none)
    (huj : u ≠ j) (hij : cdist m.cap i₀ i ≤ cdist m.cap i₀ j)
    (hadd : cdist m.cap i₀ j + cdist m.cap j u = cdist m.cap i₀ u) (hrun : m.eraseLoop fuel slots i j = some after)
    {a : Nat} {e : UInt64 × V} (ha : a < m.cap) (hae : after a = some e) :
    ∃ b, b < m.cap ∧ slots b = some e ∧ cdist m.cap i₀ a ≤ cdist m.cap i₀ b := by
  induction fuel generalizing slots i j with
  | zero => cases hrun
  | succ fuel ih =>
      have hstep := cdist_cnext hj hu huj.symm
      have hbound := cdist_lt hi₀ hu
      have hj' : cnext m.cap j < m.cap := cnext_lt (cap_pos h)
      have hsucc := cdist_succ hi₀ hj (by omega)
      simp only [eraseLoop, next_eq h hj] at hrun
      cases hs : slots (cnext m.cap j) with
      | none =>
          rw [hs] at hrun
          cases hrun
          exact ⟨a, ha, hae, Nat.le_refl _⟩
      | some e₀ =>
          obtain ⟨key, v⟩ := e₀
          have hne : u ≠ cnext m.cap j := by
            rintro rfl
            rw [hs] at hsu
            cases hsu
          rw [hs] at hrun
          simp only at hrun
          split at hrun
          · have hui : u ≠ i := by
              rintro rfl
              omega
            obtain ⟨b, hb, hbe, hle⟩ := ih hj' hj' (by rw [Function.update_of_ne hne, Function.update_of_ne hui]; exact hsu)
              hne (Nat.le_refl _) (by omega) hrun
            by_cases hbj : b = cnext m.cap j
            · subst hbj
              rw [Function.update_self] at hbe
              cases hbe
            · rw [Function.update_of_ne hbj] at hbe
              by_cases hbi : b = i
              · -- the entry that filled the hole came from further on
                subst hbi
                rw [Function.update_self] at hbe
                cases hbe
                exact ⟨_, hj', hs, by omega⟩
              · rw [Function.update_of_ne hbi] at hbe
                exact ⟨b, hb, hbe, hle⟩
          · exact ih hi hj' hsu hne (by omega) (by omega) hrun

/-- Behind the deleted slot there are only entries that were there before. -/
theorem remove_behind {m : OpenMap V} (h : m.WF) {i : Nat} {key : UInt64} {v : V} (hi : i < m.cap)
    (hs : m.slots i = some (key, v)) {a : Nat} {e : UInt64 × V} (ha : a < i) (hae : (m.remove i).slots a = some e) :
    ∃ b, b < i ∧ m.slots b = some e := by
  obtain ⟨u, hu, hun⟩ := exists_unused h
  have hui : u ≠ i := by
    rintro rfl
    rw [hs] at hun
    cases hun
  unfold remove eraseAt at hae
  cases hrun : m.eraseLoop m.cap (Function.update m.slots i none) i i with
  | none =>
      rw [hrun] at hae
      exact ⟨a, ha, hae⟩
  | some after =>
      rw [hrun] at hae
      obtain ⟨b, hb, hbe, hle⟩ := eraseLoop_back h hu hi m.cap hi hi (by rw [Function.update_of_ne hui]; exact hun) hui
        (Nat.le_refl _) (by rw [cdist_self]; omega) hrun (ha.trans hi) hae
      have hbi : b ≠ i := by
        rintro rfl
        rw [Function.update_self] at hbe
        cases hbe
      rw [Function.update_of_ne hbi] at hbe
      refine ⟨b, ?_, hbe⟩
      unfold cdist at hle
      split at hle <;> split at hle <;> omega

/-- A predicate that depends only on the key and the value, with a side effect when it is true. -/
def pureWhenFalse {σ : Type} (p : UInt64 → V → Bool) (act : σ → UInt64 → V → σ) (s : σ) (key : UInt64) (v : V) :
    Bool × σ :=
  (p key v, if p key v then act s key v else s)

/-- What `erase_if` does: `removed` are the entries for which the predicate was true, in the order of its calls. -/
structure ErasedIf {σ : Type} (p : UInt64 → V → Bool) (act : σ → UInt64 → V → σ) (m : OpenMap V) (s : σ)
    (removed : List (UInt64 × V)) (out : OpenMap V × σ × Nat) : Prop where
  wf : out.1.WF
  cap : out.1.cap = m.cap
  maxEntries : out.1.maxEntries = m.maxEntries
  split : m.entries.Perm (removed ++ out.1.entries)
  matched : ∀ e ∈ removed, p e.1 e.2 = true
  kept : ∀ e ∈ out.1.entries, p e.1 e.2 = false
  state : out.2.1 = removed.foldl (fun s e => act s e.1 e.2) s
  count : out.2.2 = removed.length

theorem eraseIf_spec {σ : Type} (p : UInt64 → V → Bool) (act : σ → UInt64 → V → σ) {m : OpenMap V} (h : m.WF) (s : σ) :
    ∃ removed out, eraseIfLoop (pureWhenFalse p act) (m.cap + m.size + 1) 0 m s 0 = some out ∧
      ErasedIf p act m s removed out := by
  have hloop : ∀ (fuel i : Nat) (m : OpenMap V) (s : σ) (n : Nat), m.WF →
      (∀ a e, a < i → a < m.cap → m.slots a = some e → p e.1 e.2 = false) → m.cap - i + m.size < fuel →
      ∃ removed out, eraseIfLoop (pureWhenFalse p act) fuel i m s n = some out ∧ out.1.WF ∧ out.1.cap = m.cap ∧
        out.1.maxEntries = m.maxEntries ∧ m.entries.Perm (removed ++ out.1.entries) ∧
        (∀ e ∈ removed, p e.1 e.2 = true) ∧ (∀ e ∈ out.1.entries, p e.1 e.2 = false) ∧
        out.2.1 = removed.foldl (fun s e => act s e.1 e.2) s ∧ out.2.2 = n + removed.length := by
    intro fuel
    induction fuel with
    | zero => intro i m s n _ _ hf; omega
    | succ fuel ih =>
        intro i m s n hw hbehind hf
        rw [eraseIfLoop]
        by_cases hi : m.cap ≤ i
        · rw [if_pos hi]
          refine ⟨[], _, rfl, hw, rfl, rfl, List.Perm.refl _, (fun e he => by cases he), fun e he => ?_, rfl, rfl⟩
          obtain ⟨a, ha, hae⟩ := mem_contents.mp he
          exact hbehind a e (Nat.lt_of_lt_of_le ha hi) ha hae
        · rw [if_neg hi]
          cases hs : m.slots i with
          | none =>
              refine ih (i + 1) m s n hw (fun a e ha hac hae => ?_) (by omega)
              rcases Nat.lt_succ_iff_lt_or_eq.mp ha with ha | rfl
              · exact hbehind a e ha hac hae
              · rw [hs] at hae
                cases hae
          | some e₀ =>
              obtain ⟨key, v⟩ := e₀
              cases hp : p key v with
              | false =>
                  have hpred : pureWhenFalse p act s key v = (false, s) := by
                    rw [pureWhenFalse, hp]
                    rfl
                  simp only [hpred]
                  refine ih (i + 1) m s n hw (fun a e ha hac hae => ?_) (by omega)
                  rcases Nat.lt_succ_iff_lt_or_eq.mp ha with ha | rfl
                  · exact hbehind a e ha hac hae
                  · rw [hs] at hae
                    cases hae
                    exact hp
              | true =>
                  have hpred : pureWhenFalse p act s key v = (true, act s key v) := by
                    rw [pureWhenFalse, hp]
                    rfl
                  simp only [hpred]
                  have hrem := remove_spec hw (Nat.lt_of_not_le hi) hs
                  have hsize := hrem.size
                  have hcap := hrem.cap
                  obtain ⟨removed, out, hrun, hwf, hcap', hmax, hsplit, htrue, hfalse, hstate, hcount⟩ :=
                    ih i (m.remove i) (act s key v) (n + 1) hrem.wf (fun a e ha hac hae => by
                      obtain ⟨b, hb, hbe⟩ := remove_behind hw (Nat.lt_of_not_le hi) hs ha hae
                      exact hbehind b e hb (by omega) hbe) (by omega)
                  refine ⟨(key, v) :: removed, out, hrun, hwf, hcap'.trans hcap, hmax.trans hrem.maxEntries,
                    hrem.entries.trans (hsplit.cons _), fun e he => ?_, hfalse, hstate, ?_⟩
                  · rcases List.mem_cons.mp he with rfl | he
                    · exact hp
                    · exact htrue e he
                  · rw [hcount, List.length_cons]
                    omega
  obtain ⟨removed, out, hrun, hwf, hcap, hmax, hsplit, htrue, hfalse, hstate, hcount⟩ :=
    hloop (m.cap + m.size + 1) 0 m s 0 h (fun a e ha => by omega) (by omega)
  exact ⟨removed, out, hrun, hwf, hcap, hmax, hsplit, htrue, hfalse, hstate, by rw [hcount, Nat.zero_add]⟩

/-- The predicate's state may carry more than the scan needs. -/
theorem eraseIf_map {σ τ : Type} {pred : σ → UInt64 → V → Bool × σ} {pred' : τ → UInt64 → V → Bool × τ} (φ : σ → τ)
    (hpred : ∀ s k v, pred' (φ s) k v = ((pred s k v).1, φ (pred s k v).2)) (m : OpenMap V) (s : σ) :
    m.eraseIf pred' (φ s) = ((m.eraseIf pred s).1, φ (m.eraseIf pred s).2.1, (m.eraseIf pred s).2.2) := by
  have hloop : ∀ (fuel i : Nat) (m : OpenMap V) (s : σ) (n : Nat), eraseIfLoop pred' fuel i m (φ s) n =
      (eraseIfLoop pred fuel i m s n).map fun o => (o.1, φ o.2.1, o.2.2) := by
    intro fuel
    induction fuel with
    | zero => exact fun _ _ _ _ => rfl
    | succ fuel ih =>
        intro i m s n
        rw [eraseIfLoop, eraseIfLoop]
        split
        · rfl
        · cases m.slots i with
          | none => exact ih (i + 1) m s n
          | some e =>
              obtain ⟨key, v⟩ := e
              simp only [hpred]
              rcases pred s key v with ⟨b, s'⟩
              cases b with
              | true => exact ih i (m.remove i) s' (n + 1)
              | false => exact ih (i + 1) m s' n
  unfold eraseIf
  rw [hloop]
  cases eraseIfLoop pred (m.cap + m.size + 1) 0 m s 0 <;> rfl

section Erased

variable {σ : Type} {p : UInt64 → V → Bool} {act : σ → UInt64 → V → σ} {m : OpenMap V} {s : σ}
  {removed : List (UInt64 × V)} {out : OpenMap V × σ × Nat}

theorem eraseIf_eq (hrun : eraseIfLoop (pureWhenFalse p act) (m.cap + m.size + 1) 0 m s 0 = some out) :
    m.eraseIf (pureWhenFalse p act) s = out := by
  rw [eraseIf, hrun]
  rfl

/-- The removed entries are the ones that satisfy the predicate, each once. -/
theorem ErasedIf.perm_filter (h : ErasedIf p act m s removed out) :
    removed.Perm (m.entries.filter fun e => p e.1 e.2) := by
  have hsplit := h.split.filter fun e => p e.1 e.2
  have hkept : (out.1.entries.filter fun e => p e.1 e.2) = [] :=
    List.filter_eq_nil_iff.mpr fun e he => by rw [h.kept e he]; simp
  rw [List.filter_append, List.filter_eq_self.mpr h.matched, hkept, List.append_nil] at hsplit
  exact hsplit.symm

/-- The others are still found, with their values. -/
theorem ErasedIf.find (h : ErasedIf p act m s removed out) (hw : m.WF) (k : UInt64) :
    out.1.find k = (m.find k).filter fun v => !p k v := by
  cases hf : m.find k with
  | none =>
      rw [Option.filter_none, find_eq_none h.wf]
      intro v hv
      exact (find_eq_none hw).mp hf v (h.split.mem_iff.mpr (List.mem_append_right _ hv))
  | some v =>
      rcases List.mem_append.mp (h.split.mem_iff.mp ((find_eq_some hw).mp hf)) with hrem | hkept
      · have hp := h.matched _ hrem
        rw [Option.filter_some, hp, if_neg (by simp), find_eq_none h.wf]
        intro w hw'
        obtain rfl : w = v := by
          have := (find_eq_some hw).mpr (h.split.mem_iff.mpr (List.mem_append_right _ hw'))
          rw [hf] at this
          exact (Option.some.inj this).symm
        rw [h.kept _ hw'] at hp
        cases hp
      · rw [Option.filter_some, h.kept _ hkept, if_pos (by rfl)]
        exact (find_eq_some h.wf).mpr hkept

end Erased

end SlickPerfmon.OpenMap
