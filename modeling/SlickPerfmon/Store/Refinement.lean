import SlickPerfmon.Library.BoundedMap
import SlickPerfmon.Store.Lemmas.EraseIf

/-!
# `open_map` is a bounded finite map

Every sequence of calls answers as a finite map that holds at most `max_entries` keys would, in whatever order the
entries are visited.
-/

namespace SlickPerfmon

open Library

/-- The calls on a map after `reset`. `write` is a write through the pointer that `find` returned. -/
inductive MapCall (V : Type)
  | insert (key : UInt64) (value : V)
  | find (key : UInt64)
  | write (key : UInt64) (f : V → V)
  | erase (key : UInt64)
  | clear
  | forEach (f : UInt64 → V → V)
  | eraseIf (p : UInt64 → V → Bool)

/-- What a call answers: the value a returned pointer designates, a flag, the entries visited, a count. -/
inductive MapResult (V : Type)
  | pointer (v : Option V)
  | flag (b : Bool)
  | visited (entries : List (UInt64 × V))
  | count (n : Nat)
  | done

/-- Two answers are the same, the order of a visit apart. -/
def MapResult.Same {V : Type} : MapResult V → MapResult V → Prop
  | .visited es, .visited es' => es.Perm es'
  | a, b => a = b

variable {V : Type}

namespace OpenMap

def call (m : OpenMap V) : MapCall V → OpenMap V × MapResult V
  | .insert key value => ((m.insert key value).1, .pointer (m.insert key value).2)
  | .find key => (m, .pointer (m.find key))
  | .write key f => (m.modify key f, .done)
  | .erase key => ((m.erase key).1, .flag (m.erase key).2)
  | .clear => (m.clear, .done)
  | .forEach f => (m.forEach f, .visited m.entries)
  | .eraseIf p =>
      let out := m.eraseIf (pureWhenFalse p fun s _ _ => s) ()
      (out.1, .count out.2.2)

def runCalls (m : OpenMap V) : List (MapCall V) → OpenMap V × List (MapResult V)
  | [] => (m, [])
  | c :: cs =>
      let out := runCalls (m.call c).1 cs
      (out.1, (m.call c).2 :: out.2)

end OpenMap

namespace Library.BoundedMap

/-- The reference for a call. -/
noncomputable def call (r : BoundedMap UInt64 V) : MapCall V → BoundedMap UInt64 V × MapResult V
  | .insert key value => ((r.insert key value).1, .pointer (r.insert key value).2)
  | .find key => (r, .pointer (r.find key))
  | .write key f => (r.modify key f, .done)
  | .erase key => ((r.erase key).1, .flag (r.erase key).2)
  | .clear => (r.clear, .done)
  | .forEach f => (r.map f, .visited r.entries)
  | .eraseIf p => (r.filter fun k v => !p k v, .count (r.filter p).keys.card)

noncomputable def runCalls (r : BoundedMap UInt64 V) : List (MapCall V) → BoundedMap UInt64 V × List (MapResult V)
  | [] => (r, [])
  | c :: cs =>
      let out := runCalls (r.call c).1 cs
      (out.1, (r.call c).2 :: out.2)

end Library.BoundedMap

/-! ## One call -/

/-- The table holds the entries of `r`. -/
structure Represents (m : OpenMap V) (r : BoundedMap UInt64 V) : Prop where
  wf : m.WF
  limit : m.maxEntries = r.limit
  find : ∀ k, m.find k = r.find k

namespace Represents

variable {m : OpenMap V} {r : BoundedMap UInt64 V}

theorem mem_keys (h : Represents m r) (k : UInt64) : k ∈ r.keys ↔ k ∈ m.entries.map Prod.fst := by
  rw [r.mem_keys, ← h.find]
  constructor
  · intro hk
    obtain ⟨v, hv⟩ := Option.isSome_iff_exists.mp hk
    exact List.mem_map.mpr ⟨(k, v), (OpenMap.find_eq_some h.wf).mp hv, rfl⟩
  · intro hk
    obtain ⟨⟨k', v⟩, he, rfl⟩ := List.mem_map.mp hk
    rw [(OpenMap.find_eq_some h.wf).mpr he]
    rfl

theorem size (h : Represents m r) : m.size = r.keys.card := by
  have hkeys : r.keys = (m.entries.map Prod.fst).toFinset := Finset.ext fun k => by
    rw [h.mem_keys, List.mem_toFinset]
  rw [hkeys, List.toFinset_card_of_nodup (OpenMap.entries_keys_nodup h.wf), List.length_map, h.wf.size_eq]

theorem entries (h : Represents m r) : m.entries.Perm r.entries := by
  refine (List.perm_ext_iff_of_nodup (List.Nodup.of_map _ (OpenMap.entries_keys_nodup h.wf)) r.nodup_entries).mpr ?_
  rintro ⟨k, v⟩
  rw [BoundedMap.mem_entries, ← h.find, OpenMap.find_eq_some h.wf]

theorem reset (n : UInt32) : Represents (OpenMap.reset n : OpenMap V) (BoundedMap.empty (max 1 n.toNat)) :=
  ⟨OpenMap.wf_reset n, OpenMap.maxEntries_reset n, OpenMap.find_reset n⟩

theorem insert (h : Represents m r) (key : UInt64) (value : V) :
    Represents (m.insert key value).1 (r.insert key value).1 ∧ (m.insert key value).2 = (r.insert key value).2 := by
  have hsize := h.size
  unfold BoundedMap.insert
  cases hf : m.find key with
  | some v =>
      rw [OpenMap.insert_present h.wf hf]
      split
      · rename_i w hw
        rw [← h.find, hf] at hw
        exact ⟨h, hw⟩
      · rename_i hw
        rw [← h.find, hf] at hw
        cases hw
  | none =>
      split
      · rename_i w hw
        rw [← h.find, hf] at hw
        cases hw
      · by_cases hroom : m.size < m.maxEntries
        · obtain ⟨hv, hins⟩ := OpenMap.insert_new (w := value) h.wf hf hroom
          rw [dif_pos (by rw [← hsize, ← h.limit]; exact hroom)]
          refine ⟨⟨hins.wf, hins.maxEntries.trans h.limit, fun k => ?_⟩, hv⟩
          rw [hins.find, h.find]
          exact (Function.update_apply ..).symm
        · have hfull : m.size = m.maxEntries := Nat.le_antisymm h.wf.size_le (Nat.le_of_not_lt hroom)
          rw [OpenMap.insert_full h.wf hf hfull, dif_neg (by rw [← hsize, ← h.limit]; exact hroom)]
          exact ⟨h, rfl⟩

theorem erase (h : Represents m r) (key : UInt64) :
    Represents (m.erase key).1 (r.erase key).1 ∧ (m.erase key).2 = (r.erase key).2 := by
  unfold BoundedMap.erase
  cases hf : m.find key with
  | some v =>
      obtain ⟨hflag, hrem⟩ := OpenMap.erase_present h.wf hf
      refine ⟨⟨hrem.wf, hrem.maxEntries.trans h.limit, fun k => ?_⟩, ?_⟩
      · rw [hrem.find, h.find]
        exact (Function.update_apply ..).symm
      · rw [hflag, ← h.find, hf]
        rfl
  | none =>
      rw [OpenMap.erase_absent h.wf hf]
      refine ⟨⟨h.wf, h.limit, fun k => ?_⟩, ?_⟩
      · refine Eq.trans ?_ (Function.update_apply ..).symm
        split
        · rename_i hk
          rw [hk, hf]
        · exact h.find k
      · rw [← h.find, hf]
        rfl

theorem modify (h : Represents m r) (key : UInt64) (f : V → V) : Represents (m.modify key f) (r.modify key f) := by
  have hspec : ∀ k, (r.modify key f).find k = (m.find k).map fun v => if k = key then f v else v := fun k => by
    rw [h.find]
    rfl
  cases hf : m.find key with
  | some v =>
      have hmod := OpenMap.modify_present h.wf f hf
      refine ⟨hmod.wf, hmod.maxEntries.trans h.limit, fun k => ?_⟩
      rw [hmod.find, hspec]
      split
      · rename_i hk
        rw [hk, hf]
        rfl
      · simp
  | none =>
      obtain ⟨j, -, hp, hc⟩ := OpenMap.probe_spec h.wf key
      have hsame : m.modify key f = m := by
        rcases hc with ⟨v, hs⟩ | ⟨hs, -, -⟩
        · simp [OpenMap.find, hp, hs] at hf
        · have hupd : Function.update m.slots j none = m.slots := by rw [← hs, Function.update_eq_self]
          simp [OpenMap.modify, hp, hs, hupd]
      rw [hsame]
      refine ⟨h.wf, h.limit, fun k => ?_⟩
      rw [hspec]
      split
      · rename_i hk
        rw [hk, hf]
        rfl
      · simp

theorem eraseIf (h : Represents m r) (p : UInt64 → V → Bool) :
    Represents (m.eraseIf (OpenMap.pureWhenFalse p fun s _ _ => s) ()).1 (r.filter fun k v => !p k v) ∧
      (m.eraseIf (OpenMap.pureWhenFalse p fun s _ _ => s) ()).2.2 = (r.filter p).keys.card := by
  obtain ⟨removed, out, hrun, hout⟩ := OpenMap.eraseIf_spec p (fun s _ _ => s) h.wf ()
  rw [OpenMap.eraseIf_eq hrun]
  refine ⟨⟨hout.wf, hout.maxEntries.trans h.limit, fun k => ?_⟩, ?_⟩
  · rw [hout.find h.wf, h.find]
    rfl
  · have hnodup : (removed.map Prod.fst).Nodup := by
      have := OpenMap.entries_keys_nodup h.wf
      rw [(hout.split.map Prod.fst).nodup_iff, List.map_append] at this
      exact (List.nodup_append.mp this).1
    have hkeys : (r.filter p).keys = (removed.map Prod.fst).toFinset := Finset.ext fun k => by
      rw [(r.filter p).mem_keys, List.mem_toFinset, List.mem_map]
      constructor
      · intro hk
        obtain ⟨v, hv⟩ := Option.isSome_iff_exists.mp hk
        obtain ⟨hfind, hp⟩ := Option.filter_eq_some_iff.mp hv
        rw [← h.find] at hfind
        exact ⟨(k, v), hout.perm_filter.mem_iff.mpr (List.mem_filter.mpr ⟨(OpenMap.find_eq_some h.wf).mp hfind, hp⟩), rfl⟩
      · rintro ⟨⟨k', v⟩, he, rfl⟩
        obtain ⟨hmem, hp⟩ := List.mem_filter.mp (hout.perm_filter.mem_iff.mp he)
        have hfind := (OpenMap.find_eq_some h.wf).mpr hmem
        rw [h.find] at hfind
        exact Option.isSome_iff_exists.mpr ⟨v, Option.filter_eq_some_iff.mpr ⟨hfind, hp⟩⟩
    rw [hout.count, hkeys, List.toFinset_card_of_nodup hnodup, List.length_map]

/-- Each call answers as the reference does. -/
theorem call (h : Represents m r) (c : MapCall V) :
    Represents (m.call c).1 (r.call c).1 ∧ (m.call c).2.Same (r.call c).2 := by
  cases c with
  | insert key value =>
      obtain ⟨hr, hv⟩ := h.insert key value
      exact ⟨hr, congrArg MapResult.pointer hv⟩
  | find key => exact ⟨h, congrArg MapResult.pointer (h.find key)⟩
  | write key f => exact ⟨h.modify key f, rfl⟩
  | erase key =>
      obtain ⟨hr, hb⟩ := h.erase key
      exact ⟨hr, congrArg MapResult.flag hb⟩
  | clear => exact ⟨⟨OpenMap.wf_clear h.wf, h.limit, OpenMap.find_clear h.wf⟩, rfl⟩
  | forEach f =>
      have hre := OpenMap.forEach_spec h.wf f
      refine ⟨⟨hre.wf, hre.maxEntries.trans h.limit, fun k => ?_⟩, h.entries⟩
      refine (hre.find k).trans ?_
      rw [h.find]
      rfl
  | eraseIf p =>
      obtain ⟨hr, hn⟩ := h.eraseIf p
      exact ⟨hr, congrArg MapResult.count hn⟩

theorem runCalls (h : Represents m r) (calls : List (MapCall V)) :
    Represents (m.runCalls calls).1 (r.runCalls calls).1 ∧
      List.Forall₂ MapResult.Same (m.runCalls calls).2 (r.runCalls calls).2 := by
  induction calls generalizing m r with
  | nil => exact ⟨h, .nil⟩
  | cons c calls ih =>
      obtain ⟨hr, hsame⟩ := h.call c
      obtain ⟨hrun, hall⟩ := ih hr
      exact ⟨hrun, .cons hsame hall⟩

end Represents

/-! ## Runs -/

theorem Library.BoundedMap.limit_runCalls (r : BoundedMap UInt64 V) (calls : List (MapCall V)) :
    (r.runCalls calls).1.limit = r.limit := by
  induction calls generalizing r with
  | nil => rfl
  | cons c calls ih =>
      refine (ih (r.call c).1).trans ?_
      cases c with
      | insert key value => exact r.limit_insert key value
      | _ => rfl

/-- The keys whose value a call may change or remove. -/
def MapCall.Touches (key : UInt64) : MapCall V → Prop
  | .insert k _ => k = key
  | .find _ => False
  | .write k _ => k = key
  | .erase k => k = key
  | .clear => True
  | .forEach _ => True
  | .eraseIf p => ∃ v, p key v = true

theorem Represents.untouched {m : OpenMap V} {r : BoundedMap UInt64 V} (h : Represents m r) {c : MapCall V}
    {key : UInt64} (hc : ¬c.Touches key) : (m.call c).1.find key = m.find key := by
  rw [(h.call c).1.find, h.find]
  cases c with
  | insert k v => exact r.find_insert_of_ne v (Ne.symm hc)
  | find k => rfl
  | write k f =>
      show (r.find key).map _ = r.find key
      simp [Ne.symm hc]
  | erase k => exact Function.update_of_ne (Ne.symm hc) _ _
  | clear => exact absurd trivial hc
  | forEach f => exact absurd trivial hc
  | eraseIf p =>
      show (r.find key).filter _ = r.find key
      have hall : ∀ v, p key v = false := fun v => by
        cases hp : p key v with
        | true => exact absurd ⟨v, hp⟩ hc
        | false => rfl
      cases r.find key <;> simp [hall, Option.filter]

/-- Whatever `max_entries` is and whatever calls follow, the table answers as a finite map of at most
`max 1 max_entries` keys; its size is the number of keys; a slot stays unused; and every probe and every deletion
comes to an end. -/
theorem openMap_refines_boundedMap (maxEntries : UInt32) (calls : List (MapCall V)) :
    let m : OpenMap V := ((OpenMap.reset maxEntries).runCalls calls).1
    let r : BoundedMap UInt64 V := ((BoundedMap.empty (max 1 maxEntries.toNat)).runCalls calls).1
    List.Forall₂ MapResult.Same ((OpenMap.reset maxEntries).runCalls calls).2
      ((BoundedMap.empty (max 1 maxEntries.toNat)).runCalls calls).2 ∧
    (∀ k, m.find k = r.find k) ∧ m.size = r.keys.card ∧ r.limit = max 1 maxEntries.toNat ∧
    (∀ c key, ¬c.Touches key → (m.call c).1.find key = m.find key) ∧
    (∃ u, u < m.cap ∧ m.slots u = none) ∧
    (∀ key, ∃ i, i < m.cap ∧ m.probe key = some i) ∧
    ∀ i, i < m.cap → m.slots i ≠ none →
      ∃ after, m.eraseLoop m.cap (Function.update m.slots i none) i i = some after := by
  obtain ⟨h, hall⟩ := (Represents.reset (V := V) maxEntries).runCalls calls
  refine ⟨hall, h.find, h.size, BoundedMap.limit_runCalls _ calls, fun c key hc => h.untouched hc,
    OpenMap.exists_unused h.wf, fun key => ?_, fun i hi hs => ?_⟩
  · obtain ⟨j, hj, hp, -⟩ := OpenMap.probe_spec h.wf key
    exact ⟨j, hj, hp⟩
  · obtain ⟨after, hrun, -⟩ := OpenMap.eraseLoop_ends h.wf hi hs
    exact ⟨after, hrun⟩

end SlickPerfmon
