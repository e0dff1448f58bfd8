import SlickPerfmon.Library.StdHeap

/-!
# Sorting in a standard library

`std::sort` is specified by what it leaves: a permutation of the range in which no element precedes one before it.
Elements of which neither precedes the other may stand in any order, so a conforming library is a parameter.
-/

namespace SlickPerfmon.Library

/-- A conforming `std::sort`. -/
structure SortLib where
  sort : {α : Type} → (α → α → Bool) → List α → List α
  perm : ∀ {α : Type} {comp : α → α → Bool}, StrictWeak comp → ∀ l, (sort comp l).Perm l
  sorted : ∀ {α : Type} {comp : α → α → Bool}, StrictWeak comp → ∀ l,
    (sort comp l).Pairwise fun a b => comp b a = false

variable {α : Type} {comp : α → α → Bool}

theorem StrictWeak.swap (hc : StrictWeak comp) : StrictWeak fun a b => comp b a where
  asymm a b h := hc.asymm b a h
  negTrans a b c hab hbc := hc.negTrans c b a hbc hab

/-- Insertion sort conforms. -/
def insertionSortLib : SortLib where
  sort comp l := l.insertionSort (fun a b => comp b a = false)
  perm _ l := List.perm_insertionSort _ l
  sorted hc l := insertionSort_pairwise hc.swap l

/-- Where of any two elements one precedes the other, there is one sorted order. -/
theorem sorted_unique {l l' : List α} (hperm : l'.Perm l) (hl : l.Pairwise fun a b => comp b a = false)
    (hl' : l'.Pairwise fun a b => comp b a = false)
    (hties : ∀ a ∈ l, ∀ b ∈ l, comp a b = false → comp b a = false → a = b) : l' = l :=
  List.Perm.eq_of_pairwise (fun a b ha hb hab hba => hties a (hperm.mem_iff.mp ha) b hb hba hab) hl' hl hperm

/-- A sorted order in which no two elements tie is strict. -/
theorem strict_of_sorted {l : List α} (hl : l.Pairwise fun a b => comp b a = false) (hnodup : l.Nodup)
    (hties : ∀ a ∈ l, ∀ b ∈ l, comp a b = false → comp b a = false → a = b) :
    l.Pairwise fun a b => comp a b = true := by
  refine List.Pairwise.imp_of_mem (fun {a b} ha hb h => ?_) (hl.and hnodup)
  cases hab : comp a b with
  | true => rfl
  | false => exact absurd (hties a ha b hb hab h.1) h.2

end SlickPerfmon.Library
