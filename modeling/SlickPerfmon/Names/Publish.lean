import SlickPerfmon.Library.NearestRank
import SlickPerfmon.Names.NameTable

/-!
# Publishing a table of names

`publish_names`, `publish_one` and `lookup` of a control block as one publisher alone sees them. A name is any
string of bytes: it is written by its length and read back up to its first zero byte.
-/

namespace SlickPerfmon

/-- A slot of the table: its key word and the bytes of its name. -/
structure NameEntry where
  keyPlusOne : UInt64
  name : Nat → UInt8

structure NameBlock where
  maxNames : UInt32
  entries : Nat → NameEntry
  nameGeneration : Nat

/-- What the user's `name_of` returns for a point and a step. -/
abbrev NameFn := UInt32 → UInt8 → List UInt8

/-- The bytes of `name` once `nm` and its terminator are copied in. -/
def copyName (nm : List UInt8) (name : Nat → UInt8) : Nat → UInt8 := fun j =>
  if h : j < nm.length then nm[j] else if j = nm.length then 0 else name j

namespace NameBlock

section model

-- `nameCapacity` is SLICK_PERFMON_NAME_CAPACITY
variable (nameCapacity : Nat)

/-- `std::string_view(tbl[i].name)`: the bytes before the first zero. -/
def label (e : NameEntry) : List UInt8 := ((List.range nameCapacity).map e.name).takeWhile (· ≠ 0)

/-- Claimed, written, stored and counted, with no other publisher in between. -/
def write (b : NameBlock) (i : Nat) (want : UInt64) (nm : List UInt8) : NameBlock :=
  { b with
    entries := Function.update b.entries i ⟨want, copyName nm (b.entries i).name⟩
    nameGeneration := b.nameGeneration + 1 }

/-- The loop of `publish_one` over `n` slots from `i` on. Alone, `await_claim` returns the claim it waits for and
the compare-exchange of a free slot succeeds. -/
def publishFrom (want : UInt64) (nm : List UInt8) (b : NameBlock) (i : Nat) : Nat → Bool × NameBlock
  | 0 => (false, b)
  | n + 1 =>
      let cur := (b.entries i).keyPlusOne
      if keyOf cur = want then
        if isClaimed cur then (false, b) else (decide (label nameCapacity (b.entries i) = nm), b)
      else if cur ≠ 0 then publishFrom want nm b (i + 1) n
      else (true, b.write i want nm)

def publishOne (key : UInt64) (nm : List UInt8) (b : NameBlock) : Bool × NameBlock :=
  publishFrom nameCapacity (key + 1) nm b 0 b.maxNames.toNat

/-- The loop of `lookup` over `n` slots from `i` on. -/
def lookupFrom (want : UInt64) (b : NameBlock) (i : Nat) : Nat → List UInt8
  | 0 => []
  | n + 1 =>
      let k := (b.entries i).keyPlusOne
      if k = 0 ∨ isClaimed k then lookupFrom want b (i + 1) n
      else if k = want then label nameCapacity (b.entries i)
      else lookupFrom want b (i + 1) n

def lookup (b : NameBlock) (p : UInt32) (step : UInt8) : List UInt8 :=
  lookupFrom nameCapacity (nameKey p step + 1) b 0 b.maxNames.toNat

/-- The pairs in the order `publish_names` goes through them. -/
def namePairs (pointCount : UInt32) : List (UInt32 × UInt8) :=
  (List.range pointCount.toNat).flatMap fun p => (List.range 256).map fun s => (UInt32.ofNat p, UInt8.ofNat s)

/-- One round of `publish_names`, on the conflicts so far and the block. -/
def publishPair (nameOf : NameFn) (acc : UInt32 × NameBlock) (c : UInt32 × UInt8) : UInt32 × NameBlock :=
  let nm := nameOf c.1 c.2
  if nm = [] then acc
  else if nm.length ≥ nameCapacity then (acc.1 + 1, acc.2)
  else
    let r := publishOne nameCapacity (nameKey c.1 c.2) nm acc.2
    (if r.1 then acc.1 else acc.1 + 1, r.2)

def publishAll (nameOf : NameFn) (b : NameBlock) (l : List (UInt32 × UInt8)) : UInt32 × NameBlock :=
  l.foldl (publishPair nameCapacity nameOf) (0, b)

/-- `publish_names` of a name function that is there: the conflicts and the block it leaves. -/
def publishNames (pointCount : UInt32) (nameOf : NameFn) (b : NameBlock) : UInt32 × NameBlock :=
  publishAll nameCapacity nameOf b (namePairs pointCount)

end model

/-! ## What a table of names asks for -/

section wanted

variable (nameCapacity : Nat) (nameOf : NameFn)

/-- The word of the slot of a pair once published. -/
def want (c : UInt32 × UInt8) : UInt64 := nameKey c.1 c.2 + 1

def fits (c : UInt32 × UInt8) : Bool := nameOf c.1 c.2 ≠ [] ∧ (nameOf c.1 c.2).length < nameCapacity

def tooLong (c : UInt32 × UInt8) : Bool := (nameOf c.1 c.2).length ≥ nameCapacity ∧ nameOf c.1 c.2 ≠ []

def freeSlots (b : NameBlock) : Nat := (List.range b.maxNames.toNat).countP fun i => (b.entries i).keyPlusOne = 0

/-- The pairs that get a slot: of those whose names fit, as many as there are free slots. -/
def placed (b : NameBlock) (l : List (UInt32 × UInt8)) : List (UInt32 × UInt8) :=
  (l.filter (fits nameCapacity nameOf)).take b.freeSlots

/-- The pairs whose names are too long or find no slot. -/
def rejected (b : NameBlock) (l : List (UInt32 × UInt8)) : List (UInt32 × UInt8) :=
  l.filter (tooLong nameCapacity nameOf) ++ (l.filter (fits nameCapacity nameOf)).drop b.freeSlots

end wanted

/-- No slot, claimed or published, belongs to the key. -/
def Absent (b : NameBlock) (want : UInt64) : Prop :=
  ∀ i < b.maxNames.toNat, keyOf (b.entries i).keyPlusOne ≠ want

/-- A slot that a search for `want` goes past. -/
def Passes (b : NameBlock) (want : UInt64) (i : Nat) : Prop :=
  (b.entries i).keyPlusOne ≠ 0 ∧ keyOf (b.entries i).keyPlusOne ≠ want

/-- The first slot a search for `want` stops at holds `nm`, as far as it reads back. -/
def Published (nameCapacity : Nat) (b : NameBlock) (want : UInt64) (nm : List UInt8) : Prop :=
  ∃ i < b.maxNames.toNat, (∀ j < i, b.Passes want j) ∧ (b.entries i).keyPlusOne = want ∧
    label nameCapacity (b.entries i) = nm.takeWhile (· ≠ 0)

/-! ## One slot -/

section slot

variable {nameCapacity : Nat}

theorem takeWhile_terminated (nm rest : List UInt8) :
    (nm ++ 0 :: rest).takeWhile (· ≠ 0) = nm.takeWhile (· ≠ 0) := by
  induction nm with
  | nil => simp
  | cons c nm ih =>
      by_cases hc : c = 0
      · simp [hc]
      · simpa [hc] using ih

theorem takeWhile_eq_self (nm : List UInt8) : nm.takeWhile (· ≠ 0) = nm ↔ 0 ∉ nm := by
  induction nm with
  | nil => simp
  | cons c nm ih =>
      by_cases hc : c = 0
      · simp [hc]
      · simpa [hc, Ne.symm hc] using ih

theorem label_copyName {nm : List UInt8} (hshort : nm.length < nameCapacity) (name : Nat → UInt8) (k : UInt64) :
    label nameCapacity ⟨k, copyName nm name⟩ = nm.takeWhile (· ≠ 0) := by
  have hbytes : (List.range nameCapacity).map (copyName nm name) =
      nm ++ 0 :: ((List.range' (nm.length + 1) (nameCapacity - nm.length - 1)).map (copyName nm name)) := by
    apply List.ext_getElem
    · simp
      omega
    · intro j hj _
      simp only [List.getElem_map, List.getElem_range]
      rcases Nat.lt_trichotomy j nm.length with hlt | rfl | hgt
      · rw [List.getElem_append_left hlt, copyName, dif_pos hlt]
      · simp [copyName]
      · rw [List.getElem_append_right (by omega)]
        obtain ⟨m, rfl⟩ : ∃ m, j = nm.length + 1 + m := ⟨j - nm.length - 1, by omega⟩
        simp [show nm.length + 1 + m - nm.length = m + 1 by omega]
  rw [label, hbytes, takeWhile_terminated]

end slot

/-! ## One search -/

section search

variable {nameCapacity : Nat} {b : NameBlock} {want : UInt64}

theorem publishFrom_passes (nm : List UInt8) (n : Nat) {d : Nat} : ∀ {i : Nat},
    (∀ j, i ≤ j → j < i + d → b.Passes want j) →
    publishFrom nameCapacity want nm b i (d + n) = publishFrom nameCapacity want nm b (i + d) n := by
  induction d with
  | zero =>
      intro i _
      rw [Nat.zero_add, Nat.add_zero]
  | succ d ih =>
      intro i hpass
      obtain ⟨hne, hkey⟩ := hpass i (Nat.le_refl i) (by omega)
      rw [show d + 1 + n = d + n + 1 by omega, publishFrom, if_neg hkey, if_pos hne,
        ih fun j hj hjd => hpass j (by omega) (by omega)]
      congr 1
      omega

theorem lookupFrom_passes (hw : IsWant want) (n : Nat) {d : Nat} : ∀ {i : Nat},
    (∀ j, i ≤ j → j < i + d → keyOf (b.entries j).keyPlusOne ≠ want) →
    lookupFrom nameCapacity want b i (d + n) = lookupFrom nameCapacity want b (i + d) n := by
  induction d with
  | zero =>
      intro i _
      rw [Nat.zero_add, Nat.add_zero]
  | succ d ih =>
      intro i hpass
      have hkey := hpass i (Nat.le_refl i) (by omega)
      have hne : (b.entries i).keyPlusOne ≠ want := fun h => hkey (by rw [h, hw.keyOf])
      have hrest := ih (i := i + 1) fun j hj hjd => hpass j (by omega) (by omega)
      rw [show i + 1 + d = i + (d + 1) by omega] at hrest
      rw [show d + 1 + n = d + n + 1 by omega, lookupFrom, if_neg hne]
      split
      · exact hrest
      · exact hrest

/-- The first free slot. -/
theorem exists_free (h : 0 < b.freeSlots) :
    ∃ i < b.maxNames.toNat, (b.entries i).keyPlusOne = 0 ∧ ∀ j < i, (b.entries j).keyPlusOne ≠ 0 := by
  obtain ⟨i, hi, hfree⟩ := List.countP_pos_iff.mp h
  rw [List.mem_range] at hi
  have hex : ∃ i, (b.entries i).keyPlusOne = 0 := ⟨i, by simpa using hfree⟩
  refine ⟨Nat.find hex, Nat.lt_of_le_of_lt (Nat.find_min' hex (by simpa using hfree)) hi, Nat.find_spec hex, ?_⟩
  intro j hj
  exact Nat.find_min hex hj

theorem not_free (h : b.freeSlots = 0) {i : Nat} (hi : i < b.maxNames.toNat) : (b.entries i).keyPlusOne ≠ 0 := by
  have hall := List.countP_eq_zero.mp h i (List.mem_range.mpr hi)
  simpa using hall

theorem Absent.passes (habs : b.Absent want) {i : Nat} (hi : i ≤ b.maxNames.toNat)
    (hused : ∀ j < i, (b.entries j).keyPlusOne ≠ 0) : ∀ j < i, b.Passes want j :=
  fun j hj => ⟨hused j hj, habs j (by omega)⟩

/-- A key that has no slot takes the first free one. -/
theorem publishFrom_free (habs : b.Absent want) (nm : List UInt8) {i : Nat} (hi : i < b.maxNames.toNat)
    (hfree : (b.entries i).keyPlusOne = 0) (hused : ∀ j < i, (b.entries j).keyPlusOne ≠ 0) :
    publishFrom nameCapacity want nm b 0 b.maxNames.toNat = (true, b.write i want nm) := by
  have hpass := habs.passes (Nat.le_of_lt hi) hused
  obtain ⟨n, hn⟩ : ∃ n, b.maxNames.toNat = i + (n + 1) := ⟨b.maxNames.toNat - i - 1, by omega⟩
  rw [hn, publishFrom_passes nm (n + 1) fun j _ hj => hpass j (by omega), publishFrom, Nat.zero_add,
    if_neg (habs i hi), if_neg (by simpa using hfree)]

theorem publishFrom_full (habs : b.Absent want) (nm : List UInt8) (hfull : b.freeSlots = 0) :
    publishFrom nameCapacity want nm b 0 b.maxNames.toNat = (false, b) := by
  have hpass := habs.passes (Nat.le_refl _) fun j hj => not_free hfull hj
  have hend : publishFrom nameCapacity want nm b 0 (b.maxNames.toNat + 0) = _ :=
    publishFrom_passes nm 0 fun j _ hj => hpass j (by omega)
  rw [Nat.add_zero] at hend
  rw [hend, publishFrom]

variable (hw : IsWant want)

include hw

/-- A key that has a slot agrees with a name that reads back whole, and with no other. -/
theorem publishFrom_published {nm : List UInt8} (hpub : Published nameCapacity b want nm) (nm' : List UInt8) :
    publishFrom nameCapacity want nm' b 0 b.maxNames.toNat = (decide (nm.takeWhile (· ≠ 0) = nm'), b) := by
  obtain ⟨i, hi, hpass, hkey, hlabel⟩ := hpub
  obtain ⟨n, hn⟩ : ∃ n, b.maxNames.toNat = i + (n + 1) := ⟨b.maxNames.toNat - i - 1, by omega⟩
  have hclaim : isClaimed (b.entries i).keyPlusOne ≠ true := by simp [hkey, hw.free]
  rw [hn, publishFrom_passes nm' (n + 1) fun j _ hj => hpass j (by omega), publishFrom, Nat.zero_add,
    if_pos (by rw [hkey, hw.keyOf]), if_neg hclaim, hlabel]

theorem lookupFrom_published {nm : List UInt8} (hpub : Published nameCapacity b want nm) :
    lookupFrom nameCapacity want b 0 b.maxNames.toNat = nm.takeWhile (· ≠ 0) := by
  obtain ⟨i, hi, hpass, hkey, hlabel⟩ := hpub
  obtain ⟨n, hn⟩ : ∃ n, b.maxNames.toNat = i + (n + 1) := ⟨b.maxNames.toNat - i - 1, by omega⟩
  rw [hn, lookupFrom_passes hw (n + 1) fun j _ hj => (hpass j (by omega)).2, lookupFrom, Nat.zero_add,
    if_neg (by simp [hkey, hw.pos, hw.free]), if_pos hkey, hlabel]

end search

/-! ## One name written -/

section write

variable {nameCapacity : Nat} {b : NameBlock} {i : Nat} {want want' : UInt64} {nm nm' : List UInt8}

theorem write_entries (b : NameBlock) (want : UInt64) (nm : List UInt8) (i j : Nat) :
    (b.write i want nm).entries j = if j = i then ⟨want, copyName nm (b.entries i).name⟩ else b.entries j := by
  by_cases hj : j = i
  · simp [write, hj]
  · simp [write, hj]

theorem published_write (habs : b.Absent want) (hi : i < b.maxNames.toNat)
    (hused : ∀ j < i, (b.entries j).keyPlusOne ≠ 0) (hshort : nm.length < nameCapacity) :
    Published nameCapacity (b.write i want nm) want nm := by
  refine ⟨i, hi, fun j hj => ?_, ?_, ?_⟩
  · have hpass := habs.passes (Nat.le_of_lt hi) hused j hj
    rw [Passes, write_entries, if_neg (Nat.ne_of_lt hj)]
    exact hpass
  · rw [write_entries, if_pos rfl]
  · rw [write_entries, if_pos rfl, label_copyName hshort]

/-- What has a slot keeps it: only free slots are written. -/
theorem Published.write (hw : IsWant want) (hpub : Published nameCapacity b want nm)
    (hfree : (b.entries i).keyPlusOne = 0) : Published nameCapacity (b.write i want' nm') want nm := by
  obtain ⟨k, hk, hpass, hkey, hlabel⟩ := hpub
  have hki : k ≠ i := by
    rintro rfl
    exact hw.pos (hkey.symm.trans hfree)
  refine ⟨k, hk, fun j hj => ?_, ?_, ?_⟩
  · have hji : j ≠ i := by
      rintro rfl
      exact (hpass j hj).1 hfree
    rw [Passes, write_entries, if_neg hji]
    exact hpass j hj
  · rw [write_entries, if_neg hki]
    exact hkey
  · rw [write_entries, if_neg hki]
    exact hlabel

theorem Absent.write (hw' : IsWant want') (hne : want' ≠ want) (habs : b.Absent want) :
    (b.write i want' nm').Absent want := by
  intro j hj
  rw [write_entries]
  split
  · rw [hw'.keyOf]
    exact hne
  · exact habs j hj

theorem freeSlots_write (hw : IsWant want) (hi : i < b.maxNames.toNat) (hfree : (b.entries i).keyPlusOne = 0) :
    b.freeSlots = (b.write i want nm).freeSlots + 1 := by
  have hmem : i ∈ List.range b.maxNames.toNat := List.mem_range.mpr hi
  obtain ⟨before, after, hsplit⟩ := List.append_of_mem hmem
  have hnd := List.nodup_range (n := b.maxNames.toNat)
  rw [hsplit, List.nodup_append, List.nodup_cons] at hnd
  have hsame : ∀ l : List Nat, i ∉ l → (l.countP fun j => ((b.write i want nm).entries j).keyPlusOne = 0) =
      l.countP fun j => (b.entries j).keyPlusOne = 0 := by
    intro l hl
    refine List.countP_congr fun j hj => ?_
    have hji : j ≠ i := by
      rintro rfl
      exact hl hj
    rw [write_entries, if_neg hji]
  have hbefore : i ∉ before := fun hmem => hnd.2.2 i hmem i (List.mem_cons_self ..) rfl
  have hpos := hw.pos
  have hkey : ((b.write i want nm).entries i).keyPlusOne = want := by rw [write_entries, if_pos rfl]
  rw [freeSlots, freeSlots, show (b.write i want nm).maxNames = b.maxNames from rfl, hsplit]
  simp only [List.countP_append, List.countP_cons, hsame _ hbefore, hsame _ hnd.2.1.1, hfree, hkey]
  simp [hpos]
  omega

end write

/-! ## A whole table -/

section pass

variable (nameCapacity : Nat) (nameOf : NameFn)

/-- What one call leaves, when its key has no slot yet. -/
theorem publishOne_absent {b : NameBlock} {c : UInt32 × UInt8} (habs : b.Absent (want c)) (nm : List UInt8) :
    (b.freeSlots = 0 ∧ publishOne nameCapacity (nameKey c.1 c.2) nm b = (false, b)) ∨
      ∃ i < b.maxNames.toNat, (b.entries i).keyPlusOne = 0 ∧ (∀ j < i, (b.entries j).keyPlusOne ≠ 0) ∧
        publishOne nameCapacity (nameKey c.1 c.2) nm b = (true, b.write i (want c) nm) := by
  rcases Nat.eq_zero_or_pos b.freeSlots with hfull | hpos
  · exact Or.inl ⟨hfull, publishFrom_full habs nm hfull⟩
  · obtain ⟨i, hi, hfree, hused⟩ := exists_free hpos
    exact Or.inr ⟨i, hi, hfree, hused, publishFrom_free habs nm hi hfree hused⟩

/-- What publishing the pairs of `l` on `b` has come to. -/
structure Passed (b : NameBlock) (l : List (UInt32 × UInt8)) (r : UInt32 × NameBlock) : Prop where
  maxNames : r.2.maxNames = b.maxNames
  free : r.2.freeSlots = b.freeSlots - (l.filter (fits nameCapacity nameOf)).length
  published : ∀ c ∈ placed nameCapacity nameOf b l, Published nameCapacity r.2 (want c) (nameOf c.1 c.2)
  absent : ∀ c, b.Absent (want c) → c ∉ placed nameCapacity nameOf b l → r.2.Absent (want c)
  conflicts : r.1 = UInt32.ofNat (rejected nameCapacity nameOf b l).length

variable {nameCapacity nameOf}

theorem want_inj {c d : UInt32 × UInt8} (h : want c = want d) : c = d := by
  obtain ⟨hp, hs⟩ := nameKey_succ_inj h
  exact Prod.ext hp hs

section append

variable {b : NameBlock} {l : List (UInt32 × UInt8)} {c : UInt32 × UInt8}

theorem filter_fits_append (l : List (UInt32 × UInt8)) (c : UInt32 × UInt8) :
    (l ++ [c]).filter (fits nameCapacity nameOf) =
      l.filter (fits nameCapacity nameOf) ++ if fits nameCapacity nameOf c then [c] else [] := by
  rw [List.filter_append, List.filter_singleton, Bool.cond_eq_ite]

theorem filter_tooLong_append (l : List (UInt32 × UInt8)) (c : UInt32 × UInt8) :
    (l ++ [c]).filter (tooLong nameCapacity nameOf) =
      l.filter (tooLong nameCapacity nameOf) ++ if tooLong nameCapacity nameOf c then [c] else [] := by
  rw [List.filter_append, List.filter_singleton, Bool.cond_eq_ite]

/-- A pair without a name, or with one that is too long, takes no slot. -/
theorem placed_append_of_not (hc : fits nameCapacity nameOf c = false) :
    placed nameCapacity nameOf b (l ++ [c]) = placed nameCapacity nameOf b l := by
  rw [placed, filter_fits_append, hc]
  simp [placed]

theorem placed_append_full (hfull : b.freeSlots ≤ (l.filter (fits nameCapacity nameOf)).length) :
    placed nameCapacity nameOf b (l ++ [c]) = placed nameCapacity nameOf b l := by
  rw [placed, filter_fits_append, List.take_append_of_le_length hfull, placed]

theorem placed_append_free (hc : fits nameCapacity nameOf c = true)
    (hfree : (l.filter (fits nameCapacity nameOf)).length < b.freeSlots) :
    placed nameCapacity nameOf b (l ++ [c]) = placed nameCapacity nameOf b l ++ [c] := by
  rw [placed, filter_fits_append, hc, placed, List.take_of_length_le (by simp; omega),
    List.take_of_length_le (by omega), if_pos rfl]

theorem rejected_append (hlong : tooLong nameCapacity nameOf c = true ∨
    (fits nameCapacity nameOf c = true ∧ b.freeSlots ≤ (l.filter (fits nameCapacity nameOf)).length)) :
    (rejected nameCapacity nameOf b (l ++ [c])).length = (rejected nameCapacity nameOf b l).length + 1 := by
  have hboth : ¬ (tooLong nameCapacity nameOf c = true ∧ fits nameCapacity nameOf c = true) := by
    simp only [tooLong, fits, decide_eq_true_eq]
    omega
  simp only [rejected, filter_fits_append, filter_tooLong_append, List.length_append, List.length_drop]
  rcases hlong with hlong | ⟨hfits, hfull⟩
  · have hnot : fits nameCapacity nameOf c = false := by
      rw [Bool.eq_false_iff]
      exact fun h => hboth ⟨hlong, h⟩
    simp [hlong, hnot]
    omega
  · have hnot : tooLong nameCapacity nameOf c = false := by
      rw [Bool.eq_false_iff]
      exact fun h => hboth ⟨h, hfits⟩
    simp [hfits, hnot]
    omega

theorem rejected_append_of_not (hlong : tooLong nameCapacity nameOf c = false)
    (hfits : fits nameCapacity nameOf c = true → (l.filter (fits nameCapacity nameOf)).length < b.freeSlots) :
    (rejected nameCapacity nameOf b (l ++ [c])).length = (rejected nameCapacity nameOf b l).length := by
  simp only [rejected, filter_fits_append, filter_tooLong_append, List.length_append, List.length_drop, hlong]
  by_cases hc : fits nameCapacity nameOf c = true
  · have hfree := hfits hc
    simp [hc]
    omega
  · simp [hc]

end append

/-! ### One round -/

section round

variable {b : NameBlock} {l : List (UInt32 × UInt8)} {r : UInt32 × NameBlock} {c : UInt32 × UInt8}
  (hpass : Passed nameCapacity nameOf b l r)

include hpass

/-- A round that leaves the block as it is. -/
theorem Passed.keep (hplaced : placed nameCapacity nameOf b (l ++ [c]) = placed nameCapacity nameOf b l)
    (hfree : fits nameCapacity nameOf c = true → b.freeSlots ≤ (l.filter (fits nameCapacity nameOf)).length)
    {n : UInt32} (hn : n = UInt32.ofNat (rejected nameCapacity nameOf b (l ++ [c])).length) :
    Passed nameCapacity nameOf b (l ++ [c]) (n, r.2) := by
  constructor
  · exact hpass.maxNames
  · have hold := hpass.free
    rw [filter_fits_append]
    by_cases hc : fits nameCapacity nameOf c = true
    · have hfull := hfree hc
      simp only [hc, if_true, List.length_append, List.length_singleton]
      omega
    · simpa [hc] using hold
  · rw [hplaced]
    exact hpass.published
  · rw [hplaced]
    exact hpass.absent
  · exact hn

/-- A round that fills the free slot `i`. -/
theorem Passed.fill (hfits : fits nameCapacity nameOf c = true) (habs : r.2.Absent (want c)) {i : Nat}
    (hi : i < r.2.maxNames.toNat) (hslot : (r.2.entries i).keyPlusOne = 0)
    (hused : ∀ j < i, (r.2.entries j).keyPlusOne ≠ 0) :
    Passed nameCapacity nameOf b (l ++ [c]) (r.1, r.2.write i (want c) (nameOf c.1 c.2)) := by
  have hw : IsWant (want c) := isWant_nameKey c.1 c.2
  have hwrite : r.2.freeSlots = (r.2.write i (want c) (nameOf c.1 c.2)).freeSlots + 1 :=
    freeSlots_write hw hi hslot
  have hfree := hpass.free
  have hroom : (l.filter (fits nameCapacity nameOf)).length < b.freeSlots := by omega
  have hshort : (nameOf c.1 c.2).length < nameCapacity := by
    simp only [fits, decide_eq_true_eq] at hfits
    exact hfits.2
  have hlong : tooLong nameCapacity nameOf c = false := by
    simp only [tooLong, decide_eq_false_iff_not]
    omega
  constructor
  · exact hpass.maxNames
  · rw [filter_fits_append, hfits]
    simp only [if_true, List.length_append, List.length_singleton]
    omega
  · intro d hd
    rw [placed_append_free hfits hroom, List.mem_append, List.mem_singleton] at hd
    rcases hd with hd | rfl
    · exact (hpass.published d hd).write (isWant_nameKey d.1 d.2) hslot
    · exact published_write habs hi hused hshort
  · intro d hd hdp
    rw [placed_append_free hfits hroom, List.mem_append, List.mem_singleton, not_or] at hdp
    exact (hpass.absent d hd hdp.1).write hw fun h => hdp.2 (want_inj h).symm
  · rw [rejected_append_of_not hlong fun _ => hroom]
    exact hpass.conflicts

theorem Passed.append (hc : c ∉ l) (habs : fits nameCapacity nameOf c → b.Absent (want c)) :
    Passed nameCapacity nameOf b (l ++ [c]) (publishPair nameCapacity nameOf r c) := by
  have hconflicts := hpass.conflicts
  have hone : ∀ n, UInt32.ofNat n + 1 = UInt32.ofNat (n + 1) := fun n => (UInt32.ofNat_add n 1).symm
  by_cases hempty : nameOf c.1 c.2 = []
  · have hfits : fits nameCapacity nameOf c = false := by simp [fits, hempty]
    have hlong : tooLong nameCapacity nameOf c = false := by simp [tooLong, hempty]
    have hr : publishPair nameCapacity nameOf r c = (r.1, r.2) := by simp [publishPair, hempty]
    rw [hr]
    exact hpass.keep (placed_append_of_not hfits) (by simp [hfits])
      (by rw [rejected_append_of_not hlong (by simp [hfits]), hconflicts])
  by_cases hlong : tooLong nameCapacity nameOf c = true
  · have hsize : (nameOf c.1 c.2).length ≥ nameCapacity := by
      simp only [tooLong, decide_eq_true_eq] at hlong
      exact hlong.1
    have hfits : fits nameCapacity nameOf c = false := by simp [fits, hsize]
    have hr : publishPair nameCapacity nameOf r c = (r.1 + 1, r.2) := by simp [publishPair, hempty, hsize]
    rw [hr]
    exact hpass.keep (placed_append_of_not hfits) (by simp [hfits])
      (by rw [rejected_append (Or.inl hlong), hconflicts, hone])
  · have hshort : (nameOf c.1 c.2).length < nameCapacity := by
      simp only [tooLong, decide_eq_true_eq] at hlong
      by_contra hsize
      exact hlong ⟨by omega, hempty⟩
    have hfits : fits nameCapacity nameOf c = true := by simp [fits, hempty, hshort]
    have hfree := hpass.free
    have hnot : c ∉ placed nameCapacity nameOf b l := fun hmem =>
      hc (List.mem_of_mem_filter (List.mem_of_mem_take hmem))
    have hnone := hpass.absent c (habs hfits) hnot
    rcases publishOne_absent nameCapacity hnone (nameOf c.1 c.2) with
      ⟨hzero, hout⟩ | ⟨i, hi, hslot, hused, hout⟩
    · have hfull : b.freeSlots ≤ (l.filter (fits nameCapacity nameOf)).length := by omega
      have hr : publishPair nameCapacity nameOf r c = (r.1 + 1, r.2) := by simp [publishPair, hempty, hout]
      rw [hr]
      exact hpass.keep (placed_append_full hfull) (fun _ => hfull)
        (by rw [rejected_append (Or.inr ⟨hfits, hfull⟩), hconflicts, hone])
    · have hr : publishPair nameCapacity nameOf r c = (r.1, r.2.write i (want c) (nameOf c.1 c.2)) := by
        simp [publishPair, hempty, hshort, hout]
      rw [hr]
      exact hpass.fill hfits hnone hi hslot hused

end round

theorem passed_publishAll {b : NameBlock} {l : List (UInt32 × UInt8)} (hnd : l.Nodup)
    (habs : ∀ c ∈ l, fits nameCapacity nameOf c → b.Absent (want c)) :
    Passed nameCapacity nameOf b l (publishAll nameCapacity nameOf b l) := by
  induction l using List.reverseRecOn with
  | nil => exact ⟨rfl, rfl, by simp [placed], fun _ h _ => h, by simp [rejected, publishAll]⟩
  | append_singleton l c ih =>
      have hl : l.Nodup := (List.nodup_append.mp hnd).1
      have hc : c ∉ l := fun hmem => (List.nodup_append.mp hnd).2.2 c hmem c (List.mem_singleton_self c) rfl
      have hpass := ih hl fun d hd => habs d (List.mem_append_left _ hd)
      rw [publishAll, List.foldl_append]
      exact hpass.append hc (habs c (by simp))

/-! ### The same table again -/

/-- A call that leaves the block as it is only counts its disagreement. -/
theorem publishPair_settled {b : NameBlock} {c : UInt32 × UInt8} {agree : Bool}
    (hone : fits nameCapacity nameOf c = true →
      publishOne nameCapacity (nameKey c.1 c.2) (nameOf c.1 c.2) b = (agree, b)) (n : UInt32) :
    publishPair nameCapacity nameOf (n, b) c =
      (if tooLong nameCapacity nameOf c || (fits nameCapacity nameOf c && !agree) then n + 1 else n, b) := by
  by_cases hempty : nameOf c.1 c.2 = []
  · simp [publishPair, tooLong, fits, hempty]
  by_cases hsize : (nameOf c.1 c.2).length ≥ nameCapacity
  · simp [publishPair, tooLong, fits, hempty, hsize]
  · have hfits : fits nameCapacity nameOf c = true := by
      simp only [fits, decide_eq_true_eq]
      exact ⟨hempty, by omega⟩
    have hout := hone hfits
    cases agree with
    | false => simp [publishPair, tooLong, hempty, hsize, hout, hfits]
    | true => simp [publishPair, tooLong, hempty, hsize, hout]

theorem publishAll_settled {b : NameBlock} {l : List (UInt32 × UInt8)} (agrees : UInt32 × UInt8 → Bool)
    (hone : ∀ c ∈ l, fits nameCapacity nameOf c = true →
      publishOne nameCapacity (nameKey c.1 c.2) (nameOf c.1 c.2) b = (agrees c, b)) :
    publishAll nameCapacity nameOf b l =
      (UInt32.ofNat (l.countP fun c => tooLong nameCapacity nameOf c || (fits nameCapacity nameOf c && !agrees c)),
        b) := by
  induction l using List.reverseRecOn with
  | nil => rfl
  | append_singleton l c ih =>
      have hpair := publishPair_settled (hone c (by simp))
      rw [publishAll, List.foldl_append, ← publishAll, ih fun d hd => hone d (List.mem_append_left _ hd),
        List.foldl_cons, List.foldl_nil, hpair, List.countP_append, List.countP_singleton]
      split
      · rw [UInt32.ofNat_add]
        rfl
      · rw [Nat.add_zero]

end pass

/-! ## Reading names back -/

/-- What is asked of the names: those that get a slot are published and read back whole, a second publication
adds no conflict, and different names stay different. -/
structure ReadBack (nameCapacity : Nat) (b : NameBlock) (pointCount : UInt32) (nameOf : NameFn) : Prop where
  succeeds : ∀ l c r, namePairs pointCount = l ++ c :: r → fits nameCapacity nameOf c = true →
    0 < (publishAll nameCapacity nameOf b l).2.freeSlots →
      (publishOne nameCapacity (nameKey c.1 c.2) (nameOf c.1 c.2) (publishAll nameCapacity nameOf b l).2).1 = true
  whole : ∀ c ∈ placed nameCapacity nameOf b (namePairs pointCount),
    lookup nameCapacity (publishNames nameCapacity pointCount nameOf b).2 c.1 c.2 = nameOf c.1 c.2
  again : (publishNames nameCapacity pointCount nameOf (publishNames nameCapacity pointCount nameOf b).2).1 =
    UInt32.ofNat (rejected nameCapacity nameOf b (namePairs pointCount)).length
  apart : ∀ c ∈ placed nameCapacity nameOf b (namePairs pointCount),
    ∀ d ∈ placed nameCapacity nameOf b (namePairs pointCount), nameOf c.1 c.2 ≠ nameOf d.1 d.2 →
      lookup nameCapacity (publishNames nameCapacity pointCount nameOf b).2 c.1 c.2 ≠
        lookup nameCapacity (publishNames nameCapacity pointCount nameOf b).2 d.1 d.2

section readBack

variable {nameCapacity : Nat} {nameOf : NameFn} {b : NameBlock} {pointCount : UInt32}

theorem nodup_namePairs (pointCount : UInt32) : (namePairs pointCount).Nodup := by
  have hlt := UInt32.toNat_lt pointCount
  have hpoint : ∀ p ∈ List.range pointCount.toNat, (UInt32.ofNat p).toNat = p := fun p hp =>
    UInt32.toNat_ofNat_of_lt' (show p < 2 ^ 32 by have := List.mem_range.mp hp; omega)
  have hstep : ∀ s ∈ List.range 256, (UInt8.ofNat s).toNat = s := fun s hs =>
    UInt8.toNat_ofNat_of_lt' (show s < 2 ^ 8 by have := List.mem_range.mp hs; omega)
  rw [namePairs, List.nodup_flatMap]
  constructor
  · intro p _
    refine List.Nodup.map_on (fun s hs t ht hst => ?_) List.nodup_range
    rw [← hstep s hs, ← hstep t ht, (Prod.mk.inj hst).2]
  · refine List.nodup_range.imp_of_mem fun {p q} hp hq hpq => ?_
    intro c hc hd
    obtain ⟨s, -, rfl⟩ := List.mem_map.mp hc
    obtain ⟨t, -, hst⟩ := List.mem_map.mp hd
    refine hpq ?_
    rw [← hpoint p hp, ← hpoint q hq, (Prod.mk.inj hst).1]

/-- The disagreements among the pairs of a table, when those with a slot disagree by their zero bytes. -/
theorem countP_again {l : List (UInt32 × UInt8)} (hnd : l.Nodup) :
    (l.countP fun c => tooLong nameCapacity nameOf c || (fits nameCapacity nameOf c &&
      !decide (c ∈ placed nameCapacity nameOf b l ∧ 0 ∉ nameOf c.1 c.2))) =
      (rejected nameCapacity nameOf b l).length +
        (placed nameCapacity nameOf b l).countP fun c => 0 ∈ nameOf c.1 c.2 := by
  have hdisj : ∀ c, tooLong nameCapacity nameOf c = true → (fits nameCapacity nameOf c &&
      !decide (c ∈ placed nameCapacity nameOf b l ∧ 0 ∉ nameOf c.1 c.2)) = false := by
    intro c hlong
    have hfits : fits nameCapacity nameOf c = false := by
      simp only [tooLong, decide_eq_true_eq] at hlong
      simp [fits, hlong.1]
    rw [hfits, Bool.false_and]
  rw [Library.countP_or hdisj, rejected, List.length_append, List.countP_eq_length_filter]
  have hfitting : (l.filter (fits nameCapacity nameOf)).Nodup := hnd.filter _
  have hsplit := List.take_append_drop b.freeSlots (l.filter (fits nameCapacity nameOf))
  rw [← hsplit, List.nodup_append] at hfitting
  have htake : (placed nameCapacity nameOf b l).countP (fun c =>
      !decide (c ∈ placed nameCapacity nameOf b l ∧ 0 ∉ nameOf c.1 c.2)) =
      (placed nameCapacity nameOf b l).countP fun c => 0 ∈ nameOf c.1 c.2 :=
    List.countP_congr fun c hc => by simp [hc]
  have hdrop : ((l.filter (fits nameCapacity nameOf)).drop b.freeSlots).countP (fun c =>
      !decide (c ∈ placed nameCapacity nameOf b l ∧ 0 ∉ nameOf c.1 c.2)) =
      ((l.filter (fits nameCapacity nameOf)).drop b.freeSlots).length := by
    rw [List.countP_eq_length]
    intro c hc
    have hout : c ∉ placed nameCapacity nameOf b l := fun hmem => hfitting.2.2 c hmem c hc rfl
    simp [hout]
  have hcount : (l.countP fun c => fits nameCapacity nameOf c &&
      !decide (c ∈ placed nameCapacity nameOf b l ∧ 0 ∉ nameOf c.1 c.2)) =
      (l.filter (fits nameCapacity nameOf)).countP fun c =>
        !decide (c ∈ placed nameCapacity nameOf b l ∧ 0 ∉ nameOf c.1 c.2) := by
    rw [List.countP_filter]
    exact List.countP_congr fun c _ => by rw [Bool.and_comm]
  have hwhole : ((l.filter (fits nameCapacity nameOf)).countP fun c =>
      !decide (c ∈ placed nameCapacity nameOf b l ∧ 0 ∉ nameOf c.1 c.2)) =
      ((placed nameCapacity nameOf b l).countP fun c => 0 ∈ nameOf c.1 c.2) +
        ((l.filter (fits nameCapacity nameOf)).drop b.freeSlots).length := by
    rw [← htake, ← hdrop, placed, ← List.countP_append, hsplit]
  rw [hcount, hwhole]
  omega

variable (habs : ∀ c ∈ namePairs pointCount, fits nameCapacity nameOf c → b.Absent (want c))

include habs

theorem lookup_publishNames {c : UInt32 × UInt8} (hc : c ∈ placed nameCapacity nameOf b (namePairs pointCount)) :
    lookup nameCapacity (publishNames nameCapacity pointCount nameOf b).2 c.1 c.2 =
      (nameOf c.1 c.2).takeWhile (· ≠ 0) :=
  lookupFrom_published (isWant_nameKey c.1 c.2)
    ((passed_publishAll (nodup_namePairs pointCount) habs).published c hc)

/-- A call of the second publication agrees when the name has a slot and reads back whole. -/
theorem publishOne_again {c : UInt32 × UInt8} (hc : c ∈ namePairs pointCount)
    (hfits : fits nameCapacity nameOf c = true) :
    publishOne nameCapacity (nameKey c.1 c.2) (nameOf c.1 c.2) (publishNames nameCapacity pointCount nameOf b).2 =
      (decide (c ∈ placed nameCapacity nameOf b (namePairs pointCount) ∧ 0 ∉ nameOf c.1 c.2),
        (publishNames nameCapacity pointCount nameOf b).2) := by
  have hpass := passed_publishAll (nodup_namePairs pointCount) habs
  by_cases hplaced : c ∈ placed nameCapacity nameOf b (namePairs pointCount)
  · have hout := publishFrom_published (isWant_nameKey c.1 c.2) (hpass.published c hplaced) (nameOf c.1 c.2)
    simp only [takeWhile_eq_self] at hout
    simp only [hplaced, true_and]
    exact hout
  · -- it found no slot, so there is none left
    have hfree := hpass.free
    have hmem : c ∈ (namePairs pointCount).filter (fits nameCapacity nameOf) := List.mem_filter.mpr ⟨hc, hfits⟩
    have hmore : b.freeSlots < ((namePairs pointCount).filter (fits nameCapacity nameOf)).length := by
      by_contra hle
      exact hplaced (by rw [placed, List.take_of_length_le (by omega)]; exact hmem)
    simp only [hplaced, false_and, decide_false]
    exact publishFrom_full (hpass.absent c (habs c hc hfits) hplaced) _ (by omega)

/-- A second publication disagrees with the names that hold a zero byte. -/
theorem publishNames_again :
    (publishNames nameCapacity pointCount nameOf (publishNames nameCapacity pointCount nameOf b).2).1 =
      UInt32.ofNat ((rejected nameCapacity nameOf b (namePairs pointCount)).length +
        (placed nameCapacity nameOf b (namePairs pointCount)).countP fun c => 0 ∈ nameOf c.1 c.2) := by
  have hsettled := publishAll_settled _ fun c hc hfits => publishOne_again habs hc hfits
  rw [countP_again (nodup_namePairs pointCount)] at hsettled
  exact congrArg Prod.fst hsettled

/-- While a slot is free, the next name that fits is published. -/
theorem publishOne_succeeds {l r : List (UInt32 × UInt8)} {c : UInt32 × UInt8}
    (hsplit : namePairs pointCount = l ++ c :: r) (hfits : fits nameCapacity nameOf c = true)
    (hfree : 0 < (publishAll nameCapacity nameOf b l).2.freeSlots) :
    (publishOne nameCapacity (nameKey c.1 c.2) (nameOf c.1 c.2) (publishAll nameCapacity nameOf b l).2).1 = true := by
  have hnd := nodup_namePairs pointCount
  rw [hsplit] at hnd habs
  rw [List.nodup_append] at hnd
  have hpass := passed_publishAll hnd.1 fun d hd => habs d (List.mem_append_left _ hd)
  have hnot : c ∉ placed nameCapacity nameOf b l := fun hmem =>
    hnd.2.2 c (List.mem_of_mem_filter (List.mem_of_mem_take hmem)) c (List.mem_cons_self ..) rfl
  have hnone := hpass.absent c (habs c (by simp) hfits) hnot
  rcases publishOne_absent nameCapacity hnone (nameOf c.1 c.2) with ⟨hzero, -⟩ | ⟨i, -, -, -, hout⟩
  · omega
  · rw [hout]

/-- Names read back whole exactly when those that get a slot hold no zero byte. -/
theorem readBack_iff : ReadBack nameCapacity b pointCount nameOf ↔
    ∀ c ∈ placed nameCapacity nameOf b (namePairs pointCount), 0 ∉ nameOf c.1 c.2 := by
  constructor
  · intro hread c hc
    rw [← takeWhile_eq_self, ← lookup_publishNames habs hc]
    exact hread.whole c hc
  · intro hzero
    have hwhole : ∀ c ∈ placed nameCapacity nameOf b (namePairs pointCount),
        lookup nameCapacity (publishNames nameCapacity pointCount nameOf b).2 c.1 c.2 = nameOf c.1 c.2 := by
      intro c hc
      rw [lookup_publishNames habs hc, takeWhile_eq_self]
      exact hzero c hc
    refine ⟨fun l c r => publishOne_succeeds habs, hwhole, ?_, ?_⟩
    · have hnone : ((placed nameCapacity nameOf b (namePairs pointCount)).countP fun c => 0 ∈ nameOf c.1 c.2) = 0 :=
        List.countP_eq_zero.mpr fun c hc => by simpa using hzero c hc
      rw [publishNames_again habs, hnone, Nat.add_zero]
    · intro c hc d hd hne
      rw [hwhole c hc, hwhole d hd]
      exact hne

end readBack

/-- A table of `n` free slots. -/
def fresh (n : UInt32) : NameBlock := ⟨n, fun _ => ⟨0, fun _ => 0⟩, 0⟩

theorem absent_fresh (n : UInt32) (c : UInt32 × UInt8) : (fresh n).Absent (want c) := by
  intro i _
  have hkey : keyOf ((fresh n).entries i).keyPlusOne = 0 := by
    rw [fresh, keyOf]
    exact UInt64.zero_and
  rw [hkey]
  exact (isWant_nameKey c.1 c.2).pos.symm

/-- Begin and step 1 of point 0, told apart only after a zero byte. -/
def splitNames : NameFn := fun p step =>
  if p = 0 ∧ step = 0 then [97, 0, 98] else if p = 0 ∧ step = 1 then [97, 0, 99] else []

theorem splitNames_alias : ¬ ∀ b pointCount nameOf,
    (∀ c ∈ namePairs pointCount, fits 64 nameOf c → b.Absent (want c)) → ReadBack 64 b pointCount nameOf := by
  intro hall
  have habs : ∀ c ∈ namePairs 1, fits 64 splitNames c → (fresh 2).Absent (want c) := fun c _ _ => absent_fresh 2 c
  have hzero : ((0, 0) : UInt32 × UInt8) ∈ placed 64 splitNames (fresh 2) (namePairs 1) := by decide +kernel
  have hone : ((0, 1) : UInt32 × UInt8) ∈ placed 64 splitNames (fresh 2) (namePairs 1) := by decide +kernel
  refine (hall (fresh 2) 1 splitNames habs).apart (0, 0) hzero (0, 1) hone (by decide) ?_
  rw [lookup_publishNames habs hzero, lookup_publishNames habs hone]
  decide

/-- Begin and end of point 0. -/
def wholeNames : NameFn := fun p step =>
  if p = 0 ∧ step = 0 then [111, 112, 101, 110] else if p = 0 ∧ step = 255 then [100, 111, 110, 101] else []

theorem wholeNames_readBack : ReadBack 64 (fresh 2) 1 wholeNames := by
  refine (readBack_iff fun c _ _ => absent_fresh 2 c).mpr fun c _ => ?_
  rw [wholeNames]
  split
  · decide
  · split
    · decide
    · decide

end NameBlock

end SlickPerfmon
