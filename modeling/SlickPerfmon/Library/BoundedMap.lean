import Mathlib.Data.Finset.Card
import Mathlib.Data.Finset.Image
import Mathlib.Logic.Function.Basic

/-!
# Finite maps of bounded size

What a fixed-capacity table is for: a finite map that holds at most `limit` keys. A value carries its domain and the
bound.
-/

namespace SlickPerfmon.Library

structure BoundedMap (κ V : Type) where
  limit : Nat
  find : κ → Option V
  keys : Finset κ
  mem_keys : ∀ k, k ∈ keys ↔ (find k).isSome = true
  card_le : keys.card ≤ limit

namespace BoundedMap

variable {κ V : Type}

theorem ext {m m' : BoundedMap κ V} (hl : m.limit = m'.limit) (hf : m.find = m'.find) : m = m' := by
  have hk : m.keys = m'.keys := Finset.ext fun k => by rw [m.mem_keys, m'.mem_keys, hf]
  cases m
  cases m'
  cases hl
  cases hf
  cases hk
  rfl

def empty (limit : Nat) : BoundedMap κ V := ⟨limit, fun _ => none, ∅, by simp, Nat.zero_le _⟩

def clear (m : BoundedMap κ V) : BoundedMap κ V := empty m.limit

/-- Every value rewritten. -/
def map (m : BoundedMap κ V) (f : κ → V → V) : BoundedMap κ V where
  limit := m.limit
  find k := (m.find k).map (f k)
  keys := m.keys
  mem_keys k := by rw [m.mem_keys, Option.isSome_map]
  card_le := m.card_le

/-- The entries that satisfy `p`. -/
def filter (m : BoundedMap κ V) (p : κ → V → Bool) : BoundedMap κ V where
  limit := m.limit
  find k := (m.find k).filter (p k)
  keys := m.keys.filter fun k => (m.find k).any (p k) = true
  mem_keys k := by
    rw [Finset.mem_filter, m.mem_keys]
    cases m.find k with
    | none => simp
    | some v => by_cases h : p k v = true <;> simp [Option.filter, h]
  card_le := (Finset.card_filter_le _ _).trans m.card_le

variable [DecidableEq κ]

/-- A new key needs room; a key that is there keeps its value. -/
def insert (m : BoundedMap κ V) (key : κ) (value : V) : BoundedMap κ V × Option V :=
  match m.find key with
  | some v => (m, some v)
  | none =>
      if h : m.keys.card < m.limit then
        ({ limit := m.limit
           find := Function.update m.find key (some value)
           keys := Insert.insert key m.keys
           mem_keys := fun k => by
             rw [Finset.mem_insert, m.mem_keys]
             by_cases hk : k = key
             · subst hk; simp
             · simp [hk]
           card_le := (Finset.card_insert_le _ _).trans h }, some value)
      else (m, none)

def erase (m : BoundedMap κ V) (key : κ) : BoundedMap κ V × Bool :=
  ({ limit := m.limit
     find := Function.update m.find key none
     keys := m.keys.erase key
     mem_keys := fun k => by
       rw [Finset.mem_erase, m.mem_keys]
       by_cases hk : k = key
       · subst hk; simp
       · simp [hk]
     card_le := (Finset.card_erase_le).trans m.card_le }, (m.find key).isSome)

/-- The value of one key rewritten, if it has one. -/
def modify (m : BoundedMap κ V) (key : κ) (f : V → V) : BoundedMap κ V :=
  m.map fun k v => if k = key then f v else v

/-- The entries, in some order. -/
noncomputable def entries (m : BoundedMap κ V) : List (κ × V) :=
  m.keys.toList.filterMap fun k => (m.find k).map fun v => (k, v)

omit [DecidableEq κ] in
theorem mem_entries {m : BoundedMap κ V} {e : κ × V} : e ∈ m.entries ↔ m.find e.1 = some e.2 := by
  obtain ⟨k, v⟩ := e
  simp only [entries, List.mem_filterMap, Finset.mem_toList, Option.map_eq_some_iff, Prod.mk.injEq]
  constructor
  · rintro ⟨k', -, v', hf, rfl, rfl⟩
    exact hf
  · intro hf
    exact ⟨k, (m.mem_keys k).mpr (by rw [hf]; rfl), v, hf, rfl, rfl⟩

omit [DecidableEq κ] in
theorem nodup_entries (m : BoundedMap κ V) : m.entries.Nodup := by
  unfold entries
  refine List.Nodup.filterMap (fun k k' e he he' => ?_) m.keys.nodup_toList
  obtain ⟨v, -, rfl⟩ := Option.map_eq_some_iff.mp he
  obtain ⟨v', -, heq⟩ := Option.map_eq_some_iff.mp he'
  cases heq
  rfl

theorem limit_insert (m : BoundedMap κ V) (key : κ) (value : V) : (m.insert key value).1.limit = m.limit := by
  unfold insert
  split
  · rfl
  · split <;> rfl

/-- A key that an insertion does not name keeps its value. -/
theorem find_insert_of_ne (m : BoundedMap κ V) {k key : κ} (value : V) (h : k ≠ key) :
    (m.insert key value).1.find k = m.find k := by
  unfold insert
  split
  · rfl
  · split
    · exact Function.update_of_ne h _ _
    · rfl

end BoundedMap

end SlickPerfmon.Library
