import SlickPerfmon.Store.Lemmas.NextPow2
import Mathlib.Data.Finset.Card
import Mathlib.Data.List.Nodup
import Mathlib.Data.List.Perm.Lattice

/-!
# `open_map` is a finite map

`WF` is what every operation keeps. The rest of the development uses the map through `find`, `size` and
`entries`: each operation has one lemma that says what it does to the three.
-/

namespace SlickPerfmon.OpenMap

open Library

variable {V : Type}

/-- The table is a power of two larger than the entry limit, every probe run is full, and no key occurs twice. -/
structure WF (m : OpenMap V) : Prop where
  pow : ∃ k, k ≤ 64 ∧ m.cap = 2 ^ k
  pos : 0 < m.maxEntries
  room : m.maxEntries < m.cap
  size_eq : m.entries.length = m.size
  size_le : m.size ≤ m.maxEntries
  runs : RunsFull (fun e : UInt64 × V => m.home e.1) m.cap m.slots m.cap
  distinct : ∀ i j k v v', i < m.cap → j < m.cap → m.slots i = some (k, v) → m.slots j = some (k, v') → i = j

/-! ## Index arithmetic -/

section Index

variable {m : OpenMap V} {k : Nat}

theorem cap_pos (h : m.WF) : 0 < m.cap := Nat.lt_of_le_of_lt (Nat.zero_le _) h.room

theorem and_mask (hc : m.cap = 2 ^ k) (x : Nat) : x &&& m.mask = x % m.cap := by
  rw [mask, hc, Nat.and_two_pow_sub_one_eq_mod]

theorem home_lt (h : m.WF) (key : UInt64) : m.home key < m.cap := by
  obtain ⟨k, -, hc⟩ := h.pow
  rw [home, and_mask hc]
  exact Nat.mod_lt _ (cap_pos h)

theorem next_eq (h : m.WF) {a : Nat} (ha : a < m.cap) : (a + 1) &&& m.mask = cnext m.cap a := by
  obtain ⟨k, -, hc⟩ := h.pow
  rw [and_mask hc, cnext]
  split
  · exact Nat.mod_eq_of_lt ‹_›
  · rw [show a + 1 = m.cap by omega, Nat.mod_self]

theorem dist_eq (h : m.WF) {a b : Nat} (ha : a < m.cap) (hb : b < m.cap) :
    m.dist a b = cdist m.cap a b := by
  obtain ⟨k, hk, hc⟩ := h.pow
  rw [dist, and_mask hc, cdist]
  have hdvd : m.cap ∣ 2 ^ 64 := by rw [hc]; exact Nat.pow_dvd_pow 2 hk
  obtain ⟨q, hq⟩ := hdvd
  have hq1 : 1 ≤ q := by
    rcases Nat.eq_zero_or_pos q with rfl | h1
    · simp at hq
    · exact h1
  obtain ⟨q, rfl⟩ := Nat.exists_eq_add_of_le hq1
  have hexp : 2 ^ 64 = m.cap + m.cap * q := by rw [hq, Nat.mul_add, Nat.mul_one]
  split
  · rw [show b + 2 ^ 64 - a = (b - a) + m.cap * (1 + q) by rw [Nat.mul_add, Nat.mul_one]; omega,
      Nat.add_mul_mod_self_left]
    exact Nat.mod_eq_of_lt (by omega)
  · rw [show b + 2 ^ 64 - a = (b + m.cap - a) + m.cap * q by omega, Nat.add_mul_mod_self_left]
    exact Nat.mod_eq_of_lt (by omega)

end Index

/-! ## Occupancy -/

/-- With fewer entries than slots, some slot is unused. -/
theorem exists_unused_of_lt {α : Type} {n : Nat} {slot : Nat → Option α}
    (h : (contents n slot).length < n) : ∃ u, u < n ∧ slot u = none := by
  induction n with
  | zero => omega
  | succ n ih =>
      cases hs : slot n with
      | none => exact ⟨n, by omega, hs⟩
      | some x =>
          rw [contents_succ, hs] at h
          simp only [Option.toList_some, List.length_append, List.length_singleton] at h
          obtain ⟨u, hu, hn⟩ := ih (by omega)
          exact ⟨u, by omega, hn⟩

theorem exists_unused {m : OpenMap V} (h : m.WF) : ∃ u, u < m.cap ∧ m.slots u = none :=
  exists_unused_of_lt (by
    have := h.size_eq; have := h.size_le; have := h.room
    simp only [entries] at *
    omega)

theorem entries_keys_nodup {m : OpenMap V} (h : m.WF) : (m.entries.map Prod.fst).Nodup := by
  have hp : m.entries.Pairwise (fun a b => a.1 ≠ b.1) := by
    unfold entries contents
    rw [List.pairwise_filterMap]
    refine (List.nodup_range (n := m.cap)).imp_of_mem ?_
    intro i j hi hj hne a ha b hb heq
    obtain ⟨ka, va⟩ := a
    obtain ⟨kb, vb⟩ := b
    simp only at heq
    subst heq
    exact hne (h.distinct i j ka va vb (List.mem_range.mp hi) (List.mem_range.mp hj) ha hb)
  rwa [List.nodup_iff_pairwise_ne, List.pairwise_map]

/-! ## Probing and lookup -/

/-- The probe loop ends at the key's slot when the key is present, and else at an unused slot that ends a full
run from the key's home. -/
theorem probe_spec {m : OpenMap V} (h : m.WF) (key : UInt64) :
    ∃ j, j < m.cap ∧ m.probe key = some j ∧
      ((∃ v, m.slots j = some (key, v)) ∨
        (m.slots j = none ∧ (∀ i v, i < m.cap → m.slots i ≠ some (key, v)) ∧
          ∀ t, t < m.cap → cdist m.cap (m.home key) t < cdist m.cap (m.home key) j → m.slots t ≠ none)) := by
  obtain ⟨u, hu, hun⟩ := exists_unused h
  have hcap := cap_pos h
  have hhome := home_lt h key
  have hstopu : m.stopAt key u = true := by simp [stopAt, hun]
  obtain ⟨j, hj, hp, hst, hbefore⟩ :=
    firstStop_spec (fun i => (i + 1) &&& m.mask) (m.stopAt key)
      (fun a ha => next_eq h ha) hhome hu hstopu
  refine ⟨j, hj, by simp only [probe, Nat.ne_of_gt hcap, if_false]; exact hp, ?_⟩
  have hoccupied : ∀ t, t < m.cap → cdist m.cap (m.home key) t < cdist m.cap (m.home key) j →
      ∃ k v, m.slots t = some (k, v) ∧ k ≠ key := by
    intro t ht hlt
    have hns := hbefore t ht hlt
    unfold stopAt at hns
    split at hns
    · cases hns
    · rename_i k v hs
      exact ⟨k, v, hs, by simpa using hns⟩
  cases hs : m.slots j with
  | some e =>
      obtain ⟨k, v⟩ := e
      left
      simp only [stopAt, hs, beq_iff_eq] at hst
      exact ⟨v, by rw [hst]⟩
  | none =>
      right
      refine ⟨rfl, ?_, fun t ht hlt hn => ?_⟩
      · intro i v hi hsi
        -- the key's own run is full, so the loop cannot have ended before the key
        by_cases hlt : cdist m.cap (m.home key) i < cdist m.cap (m.home key) j
        · obtain ⟨k, v', hs', hne⟩ := hoccupied i hi hlt
          rw [hsi] at hs'; cases hs'; exact hne rfl
        · have hij : i ≠ j := by rintro rfl; rw [hs] at hsi; cases hsi
          have hne : cdist m.cap (m.home key) j ≠ cdist m.cap (m.home key) i :=
            fun he => hij (cdist_inj hhome hj hi he).symm
          exact h.runs i (key, v) hi hsi j hj (by omega) (by simp only; omega) hs
      · obtain ⟨k, v, hs', -⟩ := hoccupied t ht hlt
        rw [hs'] at hn; cases hn

theorem find_eq_some {m : OpenMap V} (h : m.WF) {key : UInt64} {v : V} :
    m.find key = some v ↔ (key, v) ∈ m.entries := by
  obtain ⟨j, hj, hp, hc⟩ := probe_spec h key
  simp only [find, hp, entries, mem_contents]
  rcases hc with ⟨v', hs⟩ | ⟨hs, habs, -⟩
  · simp only [hs, Option.map_some, Option.some.injEq]
    constructor
    · rintro rfl; exact ⟨j, hj, hs⟩
    · rintro ⟨i, hi, hsi⟩
      obtain rfl := h.distinct i j key v v' hi hj hsi hs
      rw [hs] at hsi; cases hsi; rfl
  · simp only [hs, Option.map_none, reduceCtorEq, false_iff, not_exists, not_and]
    exact fun i hi => habs i v hi

theorem find_eq_none {m : OpenMap V} (h : m.WF) {key : UInt64} :
    m.find key = none ↔ ∀ v, (key, v) ∉ m.entries := by
  constructor
  · intro hn v hv
    rw [(find_eq_some h).mpr hv] at hn
    cases hn
  · intro hall
    cases hf : m.find key with
    | none => rfl
    | some v => exact absurd ((find_eq_some h).mp hf) (hall v)

/-- Two maps with the same entries answer every lookup alike. -/
theorem find_congr {m m' : OpenMap V} (h : m.WF) (h' : m'.WF) {key key' : UInt64}
    (he : ∀ v, (key', v) ∈ m'.entries ↔ (key, v) ∈ m.entries) : m'.find key' = m.find key := by
  cases hf : m.find key with
  | none =>
      rw [find_eq_none h'] ; intro v hv
      exact (find_eq_none h).mp hf v ((he v).mp hv)
  | some v => exact (find_eq_some h').mpr ((he v).mpr ((find_eq_some h).mp hf))

/-! ## Size -/

/-- A map whose keys are codes of the members of `S`, with the code of the member `x` absent, has room for
`x` in as many entries as `S` has members. -/
theorem size_lt_card {κ : Type} [DecidableEq κ] {m : OpenMap V} (h : m.WF) (code : κ → UInt64)
    {S : Finset κ} {x : κ} (hx : x ∈ S) (habsent : m.find (code x) = none)
    (hkeys : ∀ k v, m.find k = some v → ∃ y ∈ S, k = code y) : m.size < S.card := by
  have hsub : (m.entries.map Prod.fst).toFinset ⊆ (S.erase x).image code := by
    intro k hk
    obtain ⟨⟨k', v⟩, he, rfl⟩ := List.mem_map.mp (List.mem_toFinset.mp hk)
    have hf := (find_eq_some h).mpr he
    obtain ⟨y, hy, hky⟩ := hkeys _ _ hf
    refine Finset.mem_image.mpr ⟨y, Finset.mem_erase.mpr ⟨?_, hy⟩, hky.symm⟩
    rintro rfl
    rw [hky, habsent] at hf
    cases hf
  have hcard := Finset.card_le_card hsub
  rw [List.toFinset_card_of_nodup (entries_keys_nodup h), List.length_map, h.size_eq] at hcard
  exact Nat.lt_of_le_of_lt (hcard.trans Finset.card_image_le) (Finset.card_erase_lt_of_mem hx)

/-! ## `reset` and `clear` -/

theorem entries_reset (n : UInt32) : (reset n : OpenMap V).entries = [] := contents_const_none _

theorem runsFull_none {κ : Type} (home : κ → Nat) (n hole : Nat) :
    RunsFull home n (fun _ => none) hole := by
  intro j k _ hs; cases hs

theorem maxEntries_reset (n : UInt32) : (reset n : OpenMap V).maxEntries = max 1 n.toNat := by
  simp only [reset]
  split
  · rename_i h; subst h; rfl
  · rename_i h
    have : n.toNat ≠ 0 := fun h0 => h (UInt32.toNat_inj.mp (by simpa using h0))
    omega

theorem wf_reset (n : UInt32) : (reset n : OpenMap V).WF := by
  have hmax := maxEntries_reset (V := V) n
  set e : UInt32 := if n = 0 then 1 else n with he
  have hme : (reset n : OpenMap V).maxEntries = e.toNat := rfl
  have hpos : 0 < e.toNat := by rw [← hme, hmax]; omega
  have hlt : e.toNat < 2 ^ 32 := e.toNat_lt
  have htwo : (e.toUInt64 * 2).toNat = e.toNat * 2 := by
    rw [UInt64.toNat_mul]; simp only [UInt32.toNat_toUInt64]
    exact Nat.mod_eq_of_lt (by simpa using by omega)
  obtain ⟨k, hk1, hk, hcap, hroom⟩ := nextPow2_spec (v := e.toUInt64 * 2) (by omega) (by omega)
  have hc : (reset n : OpenMap V).cap = 2 ^ k := hcap
  exact
    { pow := ⟨k, by omega, hc⟩
      pos := by rw [hme]; exact hpos
      room := by rw [hme, hc]; omega
      size_eq := by rw [entries_reset]; rfl
      size_le := Nat.zero_le _
      runs := runsFull_none _ _ _
      distinct := by intro i j k v v' _ _ hs; cases hs }

theorem find_reset (n : UInt32) (key : UInt64) : (reset n : OpenMap V).find key = none := by
  rw [find_eq_none (wf_reset n), entries_reset]
  simp

theorem entries_clear (m : OpenMap V) : m.clear.entries = [] := contents_const_none _

theorem wf_clear {m : OpenMap V} (h : m.WF) : m.clear.WF where
  pow := h.pow
  pos := h.pos
  room := h.room
  size_eq := by rw [entries_clear]; rfl
  size_le := Nat.zero_le _
  runs := runsFull_none _ _ _
  distinct := by intro i j k v v' _ _ hs; cases hs

theorem find_clear {m : OpenMap V} (h : m.WF) (key : UInt64) : m.clear.find key = none := by
  rw [find_eq_none (wf_clear h), entries_clear]
  simp

/-! ## `maxEntries` -/

@[simp] theorem maxEntries_modify (m : OpenMap V) (key : UInt64) (f : V → V) :
    (m.modify key f).maxEntries = m.maxEntries := by
  unfold modify
  split <;> rfl

@[simp] theorem maxEntries_insert (m : OpenMap V) (key : UInt64) (v : V) :
    (m.insert key v).1.maxEntries = m.maxEntries := by
  unfold insert
  split
  · rfl
  · split
    · rfl
    · split <;> rfl

/-! ## `insert` -/

theorem insert_present {m : OpenMap V} (h : m.WF) {key : UInt64} {v w : V} (hf : m.find key = some v) :
    m.insert key w = (m, some v) := by
  obtain ⟨j, hj, hp, hc⟩ := probe_spec h key
  rcases hc with ⟨v', hs⟩ | ⟨hs, -, -⟩
  · simp only [find, hp, hs, Option.map_some, Option.some.injEq] at hf
    subst hf
    simp [insert, hp, hs]
  · simp [find, hp, hs] at hf

theorem insert_full {m : OpenMap V} (h : m.WF) {key : UInt64} {w : V} (hf : m.find key = none)
    (hfull : m.size = m.maxEntries) : m.insert key w = (m, none) := by
  obtain ⟨j, hj, hp, hc⟩ := probe_spec h key
  rcases hc with ⟨v', hs⟩ | ⟨hs, -, -⟩
  · simp [find, hp, hs] at hf
  · simp [insert, hp, hs, full, hfull]

/-- Inserting a new key into a map that is not full. -/
structure Inserted (m : OpenMap V) (key : UInt64) (w : V) (m' : OpenMap V) : Prop where
  wf : m'.WF
  cap : m'.cap = m.cap
  maxEntries : m'.maxEntries = m.maxEntries
  size : m'.size = m.size + 1
  entries : m'.entries.Perm ((key, w) :: m.entries)
  find : ∀ k, m'.find k = if k = key then some w else m.find k

theorem insert_new {m : OpenMap V} (h : m.WF) {key : UInt64} {w : V} (hf : m.find key = none)
    (hroom : m.size < m.maxEntries) :
    (m.insert key w).2 = some w ∧ Inserted m key w (m.insert key w).1 := by
  obtain ⟨j, hj, hp, hc⟩ := probe_spec h key
  rcases hc with ⟨v', hs⟩ | ⟨hs, habs, hrun⟩
  · simp [OpenMap.find, hp, hs] at hf
  · have hnf : m.full = false := by simp [full, hroom]
    have hins : m.insert key w =
        ({ m with slots := Function.update m.slots j (some (key, w)), size := m.size + 1 }, some w) := by
      simp [insert, hp, hs, hnf]
    rw [hins]
    refine ⟨rfl, ?_⟩
    set m' : OpenMap V := { m with slots := Function.update m.slots j (some (key, w)), size := m.size + 1 }
    have hperm : m'.entries.Perm ((key, w) :: m.entries) := contents_fill (key, w) hj hs
    have hne : ∀ i k v, i < m.cap → m.slots i = some (k, v) → k ≠ key := by
      rintro i k v hi hsi rfl; exact habs i v hi hsi
    have hwf : m'.WF :=
      { pow := h.pow
        pos := h.pos
        room := h.room
        size_eq := by rw [hperm.length_eq, List.length_cons, h.size_eq]
        size_le := hroom
        runs := RunsFull.fill h.runs hs hrun
        distinct := by
          intro a b k v v' ha hb hsa hsb
          simp only [m', Function.update_apply] at hsa hsb
          split at hsa <;> split at hsb
          · rename_i h1 h2; rw [h1, h2]
          · cases hsa; exact absurd rfl (hne b _ _ hb hsb)
          · cases hsb; exact absurd rfl (hne a _ _ ha hsa)
          · exact h.distinct a b k v v' ha hb hsa hsb }
    refine ⟨hwf, rfl, rfl, rfl, hperm, fun k => ?_⟩
    by_cases hk : k = key
    · subst hk
      simp only [if_true]
      exact (find_eq_some hwf).mpr (hperm.mem_iff.mpr List.mem_cons_self)
    · simp only [hk, if_false]
      refine find_congr h hwf fun v => ?_
      rw [hperm.mem_iff, List.mem_cons]
      simp [hk]

/-- What is found after an insertion was there, or was inserted. -/
theorem find_insert {m : OpenMap V} (h : m.WF) (key : UInt64) (v : V) :
    (m.insert key v).1.WF ∧
      ∀ k w, (m.insert key v).1.find k = some w → m.find k = some w ∨ k = key ∧ w = v := by
  cases hf : m.find key with
  | some v' =>
      rw [insert_present h hf]
      exact ⟨h, fun k w hw => Or.inl hw⟩
  | none =>
      rcases Nat.lt_or_eq_of_le h.size_le with hroom | hfull
      · obtain ⟨-, hins⟩ := insert_new (w := v) h hf hroom
        refine ⟨hins.wf, fun k w hw => ?_⟩
        rw [hins.find] at hw
        split at hw
        · rename_i hk
          exact Or.inr ⟨hk, (Option.some.inj hw).symm⟩
        · exact Or.inl hw
      · rw [insert_full h hf hfull]
        exact ⟨h, fun k w hw => Or.inl hw⟩

/-! ## `modify` -/

/-- Writing through a pointer to a present key. -/
structure Modified (m : OpenMap V) (key : UInt64) (v w : V) (m' : OpenMap V) : Prop where
  wf : m'.WF
  cap : m'.cap = m.cap
  maxEntries : m'.maxEntries = m.maxEntries
  size : m'.size = m.size
  entries : ∃ rest, m.entries.Perm ((key, v) :: rest) ∧ m'.entries.Perm ((key, w) :: rest)
  find : ∀ k, m'.find k = if k = key then some w else m.find k

theorem modify_present {m : OpenMap V} (h : m.WF) {key : UInt64} {v : V} (f : V → V)
    (hf : m.find key = some v) : Modified m key v (f v) (m.modify key f) := by
  obtain ⟨j, hj, hp, hc⟩ := probe_spec h key
  rcases hc with ⟨v', hs⟩ | ⟨hs, -, -⟩
  · simp only [OpenMap.find, hp, hs, Option.map_some, Option.some.injEq] at hf
    subst hf
    have hmod : m.modify key f = { m with slots := Function.update m.slots j (some (key, f v')) } := by
      simp [modify, hp, hs]
    rw [hmod]
    set m' : OpenMap V := { m with slots := Function.update m.slots j (some (key, f v')) }
    obtain ⟨rest, hp1, hp2⟩ := contents_set (key, f v') hj hs
    have hslot : ∀ i k x, m'.slots i = some (k, x) → ∃ y, m.slots i = some (k, y) := by
      intro i k x hsi
      simp only [m', Function.update_apply] at hsi
      split at hsi
      · rename_i hij; cases hsi; exact ⟨v', by rw [hij]; exact hs⟩
      · exact ⟨x, hsi⟩
    have hnone : ∀ t, m.slots t ≠ none → m'.slots t ≠ none := by
      intro t ht
      simp only [m', Function.update_apply]
      split
      · simp
      · exact ht
    have hwf : m'.WF :=
      { pow := h.pow
        pos := h.pos
        room := h.room
        size_eq := by
          have := h.size_eq
          rw [show m.entries = contents m.cap m.slots from rfl, hp1.length_eq] at this
          rw [show m'.entries = contents m.cap m'.slots from rfl, hp2.length_eq]
          simpa using this
        size_le := h.size_le
        runs := by
          rintro a ⟨k, x⟩ ha hsa t ht hne hlt
          obtain ⟨y, hy⟩ := hslot a k x hsa
          exact hnone t (h.runs a (k, y) ha hy t ht hne hlt)
        distinct := by
          intro a b k x x' ha hb hsa hsb
          obtain ⟨y, hy⟩ := hslot a k x hsa
          obtain ⟨y', hy'⟩ := hslot b k x' hsb
          exact h.distinct a b k y y' ha hb hy hy' }
    refine ⟨hwf, rfl, rfl, rfl, ⟨rest, hp1, hp2⟩, fun k => ?_⟩
    by_cases hk : k = key
    · subst hk
      simp only [if_true]
      exact (find_eq_some hwf).mpr (hp2.mem_iff.mpr List.mem_cons_self)
    · simp only [hk, if_false]
      refine find_congr h hwf fun x => ?_
      rw [show m'.entries = contents m.cap m'.slots from rfl, hp2.mem_iff,
        show m.entries = contents m.cap m.slots from rfl, hp1.mem_iff]
      simp [hk]
  · simp [OpenMap.find, hp, hs] at hf

end SlickPerfmon.OpenMap
