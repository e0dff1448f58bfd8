import SlickPerfmon.Store.Lemmas.OpenMap

/-!
# Backward-shift deletion

The loop of `erase_at` carries one hole. While it runs, every probe run is full except for the hole, and the
slots walked since the hole was made hold no entry that could fill it. An unused slot ahead bounds the walk.
-/

namespace SlickPerfmon.OpenMap

open Library

variable {V : Type}

/-! ## One run of the loop -/

/-- No key occurs twice among the slots. -/
def Distinct (n : Nat) (slots : Nat → Option (UInt64 × V)) : Prop :=
  ∀ i j k v v', i < n → j < n → slots i = some (k, v) → slots j = some (k, v') → i = j

/-- What the loop of `erase_at` leaves: full runs, and the entries it started from. -/
structure Closed (m : OpenMap V) (before after : Nat → Option (UInt64 × V)) : Prop where
  runs : RunsFull (fun e : UInt64 × V => m.home e.1) m.cap after m.cap
  distinct : Distinct m.cap after
  contents : (contents m.cap after).Perm (contents m.cap before)

theorem Distinct.move {n i j : Nat} {slots : Nat → Option (UInt64 × V)} {e : UInt64 × V}
    (h : Distinct n slots) (hj : j < n) (hs : slots j = some e) :
    Distinct n (Function.update (Function.update slots i (some e)) j none) := by
  -- an entry of the new slots at `a` was at `a` before, or at `j` when `a` is the old hole
  have hwas : ∀ a k v, Function.update (Function.update slots i (some e)) j none a = some (k, v) →
      a ≠ j ∧ ((a = i ∧ slots j = some (k, v)) ∨ (a ≠ i ∧ slots a = some (k, v))) := by
    intro a k v ha
    simp only [Function.update_apply] at ha
    split at ha
    · cases ha
    · rename_i haj
      refine ⟨haj, ?_⟩
      split at ha
      · rename_i hai; exact Or.inl ⟨hai, by rw [hs]; exact ha⟩
      · rename_i hai; exact Or.inr ⟨hai, ha⟩
  intro a b k v v' ha hb hsa hsb
  obtain ⟨haj, h1⟩ := hwas a k v hsa
  obtain ⟨hbj, h2⟩ := hwas b k v' hsb
  rcases h1 with ⟨hai, hsa'⟩ | ⟨hai, hsa'⟩ <;> rcases h2 with ⟨hbi, hsb'⟩ | ⟨hbi, hsb'⟩
  · rw [hai, hbi]
  · exact absurd (h j b k v v' hj hb hsa' hsb').symm hbj
  · exact absurd (h a j k v v' ha hj hsa' hsb') haj
  · exact h a b k v v' ha hb hsa' hsb'

theorem eraseLoop_spec {m : OpenMap V} (h : m.WF) {u : Nat} (hu : u < m.cap) :
    ∀ (fuel : Nat) (slots : Nat → Option (UInt64 × V)) (i j : Nat), i < m.cap → j < m.cap →
      slots i = none → slots u = none → u ≠ j →
      cdist m.cap i j + cdist m.cap j u = cdist m.cap i u → cdist m.cap j u ≤ fuel →
      RunsFull (fun e : UInt64 × V => m.home e.1) m.cap slots i →
      Scanned (fun e : UInt64 × V => m.home e.1) m.cap slots i j → Distinct m.cap slots →
      ∃ after, m.eraseLoop fuel slots i j = some after ∧ Closed m slots after := by
  have hhome : ∀ e : UInt64 × V, m.home e.1 < m.cap := fun e => home_lt h e.1
  intro fuel
  induction fuel with
  | zero =>
      intro slots i j _ hj _ _ huj _ hf
      exact absurd (cdist_eq_zero hj (by omega)).symm huj
  | succ fuel ih =>
      intro slots i j hi hj hsi hsu huj hadd hf hrf hsc hd
      have hstep := cdist_cnext hj hu huj.symm
      have hiu := cdist_lt hi hu
      have hlast : cdist m.cap i j + 1 < m.cap := by omega
      have hj' : cnext m.cap j < m.cap := cnext_lt (cap_pos h)
      have hsucc := cdist_succ hi hj hlast
      simp only [eraseLoop, next_eq h hj]
      cases hs : slots (cnext m.cap j) with
      | none => exact ⟨slots, rfl, RunsFull.close hrf hsc hi hj hhome hs, hd, List.Perm.refl _⟩
      | some e =>
          obtain ⟨key, v⟩ := e
          have hne : u ≠ cnext m.cap j := by rintro rfl; rw [hs] at hsu; cases hsu
          simp only [dist_eq h (home_lt h key) hi, dist_eq h (home_lt h key) hj']
          split
          · rename_i hle
            have hij : i ≠ cnext m.cap j := by rintro he; rw [← he, hsi] at hs; cases hs
            have hui : u ≠ i := by rintro rfl; rw [cdist_self] at hadd; omega
            obtain ⟨after, hrun, hcl⟩ := ih
              (Function.update (Function.update slots i (some (key, v))) (cnext m.cap j) none)
              (cnext m.cap j) (cnext m.cap j) hj' hj' (by simp)
              (by rw [Function.update_of_ne hne, Function.update_of_ne hui]; exact hsu) hne
              (by rw [cdist_self]; omega) (by omega)
              (RunsFull.move hrf hj' hs hle) (Scanned.start _) (hd.move hj' hs)
            exact ⟨after, hrun, hcl.runs, hcl.distinct,
              hcl.contents.trans (contents_move hi hj' hij hsi hs)⟩
          · rename_i hnle
            refine ih slots i (cnext m.cap j) hi hj' hsi hsu hne (by omega) (by omega) hrf ?_ hd
            refine Scanned.extend hsc hi hj hlast ?_
            intro e' he'
            rw [hs] at he'
            cases he'
            exact hnle

/-- `erase_at` on a used slot, with the size decremented as both its callers do. -/
structure Removed (m : OpenMap V) (key : UInt64) (v : V) (m' : OpenMap V) : Prop where
  wf : m'.WF
  cap : m'.cap = m.cap
  maxEntries : m'.maxEntries = m.maxEntries
  size : m'.size + 1 = m.size
  entries : m.entries.Perm ((key, v) :: m'.entries)
  find : ∀ k, m'.find k = if k = key then none else m.find k

/-- The loops of `erase_at` end. -/
theorem eraseLoop_ends {m : OpenMap V} (h : m.WF) {i : Nat} (hi : i < m.cap) (hs : m.slots i ≠ none) :
    ∃ after, m.eraseLoop m.cap (Function.update m.slots i none) i i = some after ∧
      Closed m (Function.update m.slots i none) after := by
  obtain ⟨u, hu, hun⟩ := exists_unused h
  have hui : u ≠ i := by rintro rfl; exact hs hun
  have hdistinct : Distinct m.cap (Function.update m.slots i none) := by
    intro a b k x x' ha hb hsa hsb
    simp only [Function.update_apply] at hsa hsb
    split at hsa
    · cases hsa
    · split at hsb
      · cases hsb
      · exact h.distinct a b k x x' ha hb hsa hsb
  exact eraseLoop_spec h hu m.cap (Function.update m.slots i none) i i hi hi
    (by simp) (by rw [Function.update_of_ne hui]; exact hun) hui
    (by rw [cdist_self]; omega) (Nat.le_of_lt (cdist_lt hi hu))
    (RunsFull.clear h.runs) (Scanned.start _) hdistinct

theorem remove_spec {m : OpenMap V} (h : m.WF) {i : Nat} {key : UInt64} {v : V} (hi : i < m.cap)
    (hs : m.slots i = some (key, v)) : Removed m key v (m.remove i) := by
  obtain ⟨after, hrun, hcl⟩ := eraseLoop_ends h hi (by rw [hs]; simp)
  have hrem : m.remove i = { m with slots := after, size := m.size - 1 } := by
    simp [remove, eraseAt, hrun]
  rw [hrem]
  set m' : OpenMap V := { m with slots := after, size := m.size - 1 }
  have hperm : m.entries.Perm ((key, v) :: m'.entries) :=
    (contents_clear hi hs).trans (hcl.contents.symm.cons _)
  have hlen : m'.entries.length + 1 = m.size := by
    rw [← h.size_eq, hperm.length_eq, List.length_cons]
  have hwf : m'.WF :=
    { pow := h.pow
      pos := h.pos
      room := h.room
      size_eq := by show m'.entries.length = m.size - 1; omega
      size_le := by have := h.size_le; show m.size - 1 ≤ m.maxEntries; omega
      runs := hcl.runs
      distinct := hcl.distinct }
  refine ⟨hwf, rfl, rfl, by show m.size - 1 + 1 = m.size; omega, hperm, fun k => ?_⟩
  have hnd := entries_keys_nodup h
  rw [(hperm.map Prod.fst).nodup_iff, List.map_cons, List.nodup_cons] at hnd
  by_cases hk : k = key
  · subst hk
    simp only [if_true]
    rw [find_eq_none hwf]
    intro x hx
    exact hnd.1 (List.mem_map.mpr ⟨(k, x), hx, rfl⟩)
  · simp only [hk, if_false]
    refine find_congr h hwf fun x => ?_
    rw [hperm.mem_iff, List.mem_cons]
    simp [hk]

/-! ## `erase` -/

theorem erase_present {m : OpenMap V} (h : m.WF) {key : UInt64} {v : V} (hf : m.find key = some v) :
    (m.erase key).2 = true ∧ Removed m key v (m.erase key).1 := by
  obtain ⟨j, hj, hp, hc⟩ := probe_spec h key
  rcases hc with ⟨v', hs⟩ | ⟨hs, -, -⟩
  · simp only [OpenMap.find, hp, hs, Option.map_some, Option.some.injEq] at hf
    subst hf
    simp only [erase, hp, hs, true_and]
    exact remove_spec h hj hs
  · simp [OpenMap.find, hp, hs] at hf

theorem erase_absent {m : OpenMap V} (h : m.WF) {key : UInt64} (hf : m.find key = none) :
    m.erase key = (m, false) := by
  obtain ⟨j, hj, hp, hc⟩ := probe_spec h key
  rcases hc with ⟨v', hs⟩ | ⟨hs, -, -⟩
  · simp [OpenMap.find, hp, hs] at hf
  · simp [erase, hp, hs]

/-! ## `erase_if` -/

/-- An invariant of the map, the predicate's state and the removal count that skipping and removing keep holds
after `erase_if`, which always ends. -/
theorem eraseIf_induct {σ : Type} (pred : σ → UInt64 → V → Bool × σ) {m : OpenMap V} (h : m.WF) (s : σ)
    (P : OpenMap V → σ → Nat → Prop) (h0 : P m s 0)
    (hskip : ∀ m s n key v, m.WF → P m s n → m.find key = some v → (pred s key v).1 = false →
      P m (pred s key v).2 n)
    (hremove : ∀ m m' s n key v, m.WF → P m s n → m.find key = some v → (pred s key v).1 = true →
      Removed m key v m' → P m' (pred s key v).2 (n + 1)) :
    ∃ m' s' n, m.eraseIf pred s = (m', s', n) ∧ m'.WF ∧ P m' s' n := by
  have hloop : ∀ (fuel i : Nat) (m : OpenMap V) (s : σ) (n : Nat), m.WF → P m s n →
      m.cap - i + m.size < fuel →
      ∃ m' s' n', eraseIfLoop pred fuel i m s n = some (m', s', n') ∧ m'.WF ∧ P m' s' n' := by
    intro fuel
    induction fuel with
    | zero => intro i m s n _ _ hf; omega
    | succ fuel ih =>
        intro i m s n hw hP hf
        simp only [eraseIfLoop]
        by_cases hi : m.cap ≤ i
        · simp only [hi, if_true]
          exact ⟨m, s, n, rfl, hw, hP⟩
        · simp only [hi, if_false]
          cases hs : m.slots i with
          | none => exact ih (i + 1) m s n hw hP (by omega)
          | some e =>
              obtain ⟨key, v⟩ := e
              have hfind : m.find key = some v :=
                (find_eq_some hw).mpr (mem_contents.mpr ⟨i, by omega, hs⟩)
              cases hp : pred s key v with
              | mk b s' =>
                  cases b with
                  | false =>
                      simp only [hp]
                      have hP' := hskip m s n key v hw hP hfind (by rw [hp])
                      rw [hp] at hP'
                      exact ih (i + 1) m s' n hw hP' (by omega)
                  | true =>
                      simp only [hp]
                      have hrem := remove_spec hw (by omega) hs
                      have hP' := hremove m _ s n key v hw hP hfind (by rw [hp]) hrem
                      rw [hp] at hP'
                      have := hrem.size
                      have := hrem.cap
                      exact ih i (m.remove i) s' (n + 1) hrem.wf hP' (by omega)
  obtain ⟨m', s', n', hrun, hw, hP⟩ := hloop (m.cap + m.size + 1) 0 m s 0 h h0 (by omega)
  exact ⟨m', s', n', by simp [eraseIf, hrun], hw, hP⟩

/-! ## `for_each` -/

/-- `for_each` with a function that rewrites values keeps the keys. -/
structure Rewritten (m : OpenMap V) (f : UInt64 → V → V) (m' : OpenMap V) : Prop where
  wf : m'.WF
  cap : m'.cap = m.cap
  maxEntries : m'.maxEntries = m.maxEntries
  size : m'.size = m.size
  entries : m'.entries = m.entries.map fun e => (e.1, f e.1 e.2)
  find : ∀ k, m'.find k = (m.find k).map (f k)

theorem forEach_spec {m : OpenMap V} (h : m.WF) (f : UInt64 → V → V) : Rewritten m f (m.forEach f) := by
  set m' := m.forEach f with hm'
  have hslot : ∀ i k x, m'.slots i = some (k, x) → ∃ y, m.slots i = some (k, y) := by
    intro i k x hsi
    simp only [hm', forEach, Option.map_eq_some_iff] at hsi
    obtain ⟨⟨k', y⟩, hs, he⟩ := hsi
    cases he
    exact ⟨y, hs⟩
  have hent : m'.entries = m.entries.map fun e => (e.1, f e.1 e.2) := by
    simp only [hm', OpenMap.entries, forEach, contents, List.map_filterMap]
  have hwf : m'.WF :=
    { pow := h.pow
      pos := h.pos
      room := h.room
      size_eq := by rw [hent, List.length_map]; exact h.size_eq
      size_le := h.size_le
      runs := by
        rintro a ⟨k, x⟩ ha hsa t ht hne hlt
        obtain ⟨y, hy⟩ := hslot a k x hsa
        have := h.runs a (k, y) ha hy t ht hne hlt
        simpa [hm', forEach] using this
      distinct := by
        intro a b k x x' ha hb hsa hsb
        obtain ⟨y, hy⟩ := hslot a k x hsa
        obtain ⟨y', hy'⟩ := hslot b k x' hsb
        exact h.distinct a b k y y' ha hb hy hy' }
  refine ⟨hwf, rfl, rfl, rfl, hent, fun k => ?_⟩
  cases hf : m.find k with
  | none =>
      rw [Option.map_none, find_eq_none hwf, hent]
      rintro v hv
      obtain ⟨⟨k', x⟩, hx, he⟩ := List.mem_map.mp hv
      cases he
      exact (find_eq_none h).mp hf x hx
  | some v =>
      rw [Option.map_some, find_eq_some hwf, hent]
      exact List.mem_map.mpr ⟨(k, v), (find_eq_some h).mp hf, rfl⟩

end SlickPerfmon.OpenMap
