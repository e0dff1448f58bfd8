import Mathlib.Data.Nat.Count
import SlickPerfmon.Names.OneSlot

/-!
# Counting names

`claimed_names` scans for the first free slot while publishers go on taking slots, and the generation counts the names
that have become readable. The used slots are a prefix that only grows, so that a scan comes between what was there when
it began and what is there when it ends.
-/

namespace SlickPerfmon

open Library

variable {nameCapacity : Nat} {Caller Reader Counter : Type}

/-! ## What there is to count -/

/-- A slot that `lookup` reads. -/
def NameSlot.readable (slot : NameSlot Caller) : Bool := slot.keyPlusOne != 0 && !isClaimed slot.keyPlusOne

namespace NameState

variable (s : NameState Caller Reader) (maxNames : Nat)

def claimed : Nat := Nat.count (fun i => (s.slots i).keyPlusOne ≠ 0) maxNames

def readable : Nat := Nat.count (fun i => (s.slots i).readable) maxNames

/-- Slot `i` is readable and its publisher past the generation bump. -/
def announcedAt (i : Nat) : Bool :=
  (s.slots i).readable && !(s.slots i).claimant.any fun c => decide (s.publishers c = .bump i)

def announced : Nat := Nat.count (fun i => s.announcedAt i) maxNames

end NameState

/-- Where a call of `claimed_names` stands: before the load of slot `n`, or returned. -/
inductive CountPc
  | idle
  | load (n : Nat)
  | done (n : Nat)
deriving DecidableEq, Repr

structure CountState (Caller Reader Counter : Type) where
  names : NameState Caller Reader
  counts : Counter → CountPc

inductive CountAction (Caller Reader Counter : Type)
  | names (a : NameAction Caller Reader)
  | count (q : Counter)

section Model

variable [DecidableEq Caller] [DecidableEq Reader] [DecidableEq Counter] (maxNames : Nat)

/-- The next step of the call `q` of `claimed_names`. -/
def CountState.countStep (s : CountState Caller Reader Counter) (q : Counter) :
    Option (CountState Caller Reader Counter) :=
  let goto := fun pc => some { s with counts := Function.update s.counts q pc }
  match s.counts q with
  | .idle => goto (.load 0)
  | .load n => goto (if n < maxNames ∧ (s.names.slots n).keyPlusOne ≠ 0 then .load (n + 1) else .done n)
  | .done _ => none

/-- Every interleaving of publishers, lookups and counts on a fresh table. -/
def countSystem (publications : Caller → Publication nameCapacity) (wanted : Reader → UInt32 × UInt8) :
    System (CountState Caller Reader Counter) (CountAction Caller Reader Counter) where
  Init s := (nameSystem maxNames publications wanted).Init s.names ∧ ∀ q, s.counts q = .idle
  step a s :=
    match a with
    | .names a => ((nameSystem maxNames publications wanted).step a s.names).map fun names => { s with names := names }
    | .count q => s.countStep maxNames q

end Model

/-! ## Prefixes -/

section Prefix

variable {P : Nat → Prop} [DecidablePred P] {n k : Nat}

theorem count_le_of_free (hdense : ∀ i j, i < j → P j → P i) (hfree : ¬ P k) : Nat.count P n ≤ k := by
  rcases Nat.le_total n k with h | h
  · exact (Nat.count_le P).trans h
  · obtain ⟨m, rfl⟩ := Nat.exists_eq_add_of_le h
    have hnone : Nat.count (fun i => P (k + i)) m = 0 := by
      refine Nat.count_of_forall_not fun i _ hi => hfree ?_
      rcases Nat.eq_zero_or_pos i with rfl | hpos
      · exact hi
      · exact hdense k (k + i) (by omega) hi
    rw [Nat.count_add, hnone, Nat.add_zero]
    exact Nat.count_le P

theorem le_count_of_used (hk : k ≤ n) (hused : ∀ i, i < k → P i) : k ≤ Nat.count P n := by
  have hall : Nat.count P k = k := Nat.count_iff_forall.mpr fun {i} hi => hused i hi
  calc k = Nat.count P k := hall.symm
    _ ≤ Nat.count P n := Nat.count_monotone P hk

/-- What is dense and ends before `n` is what it counts. -/
theorem dense_iff_lt_count (hdense : ∀ i j, i < j → P j → P i) (hrange : ∀ i, P i → i < n) (i : Nat) :
    P i ↔ i < Nat.count P n := by
  constructor
  · intro hi
    refine le_count_of_used (hrange i hi) fun j hj => ?_
    rcases Nat.lt_succ_iff_lt_or_eq.mp hj with hlt | rfl
    · exact hdense j i hlt hi
    · exact hi
  · intro hlt
    by_contra hfree
    exact absurd (count_le_of_free (n := n) hdense hfree) (Nat.not_le.mpr hlt)

theorem count_congr {Q : Nat → Prop} [DecidablePred Q] (h : ∀ i, i < n → (Q i ↔ P i)) :
    Nat.count Q n = Nat.count P n :=
  Nat.le_antisymm (Nat.count_mono_left fun i hi => (h i hi).mp) (Nat.count_mono_left fun i hi => (h i hi).mpr)

/-- One more that counts. -/
theorem count_insert {Q : Nat → Prop} [DecidablePred Q] (hk : k < n) (hP : ¬ P k) (hQ : Q k)
    (hne : ∀ i, i ≠ k → (Q i ↔ P i)) : Nat.count Q n = Nat.count P n + 1 := by
  induction n with
  | zero => exact absurd hk (Nat.not_lt_zero k)
  | succ n ih =>
      rw [Nat.count_succ, Nat.count_succ]
      rcases Nat.lt_succ_iff_lt_or_eq.mp hk with hlt | rfl
      · rw [ih hlt, if_congr (hne n (by omega)) rfl rfl]
        omega
      · rw [count_congr fun i hi => hne i (Nat.ne_of_lt hi), if_pos hQ, if_neg hP]

end Prefix

/-! ## The generation -/

section Steps

variable [DecidableEq Caller] {publications : Caller → Publication nameCapacity} {maxNames : Nat}
  {wanted : Reader → UInt32 × UInt8} {s s' : NameState Caller Reader} {p : Caller}

theorem resolve_ne_bump (want cur : UInt64) (i : Nat) (lost : Bool) (j : Nat) : resolve want cur i lost ≠ .bump j := by
  unfold resolve
  split_ifs <;> simp

theorem examine_ne_bump (want cur : UInt64) (i : Nat) (lost : Bool) (j : Nat) : examine want cur i lost ≠ .bump j := by
  unfold examine
  split
  · simp
  · exact resolve_ne_bump want cur i lost j

theorem update_eq_bump {j : Nat} (hbefore : s.publishers p ≠ .bump j) {pc : PublishPc} (hafter : pc ≠ .bump j)
    (c : Caller) : Function.update s.publishers p pc c = .bump j ↔ s.publishers c = .bump j := by
  by_cases hc : c = p
  · subst hc
    simp [hbefore, hafter]
  · rw [Function.update_of_ne hc]

/-- A call that is at no bump of slot `j`, before and after, announces nothing there. -/
theorem announcedAt_setPublisher {j : Nat} (hbefore : s.publishers p ≠ .bump j) {pc : PublishPc} (hafter : pc ≠ .bump j) :
    (s.setPublisher p pc).announcedAt j = s.announcedAt j := by
  simp only [NameState.announcedAt, NameState.setPublisher, update_eq_bump hbefore hafter]

/-- A store into a slot that is not readable before it, and after it at most by a call that has yet to bump. -/
theorem announcedAt_setSlot {i : Nat} {slot : NameSlot Caller} {pc : PublishPc} (hbefore : ∀ i, s.publishers p ≠ .bump i)
    (hold : (s.slots i).readable = false) (hafter : ∀ j, j ≠ i → pc ≠ .bump j)
    (hnew : slot.readable = false ∨ slot.claimant = some p ∧ pc = .bump i) (j : Nat) :
    ((s.setSlot i slot).setPublisher p pc).announcedAt j = s.announcedAt j := by
  by_cases hj : j = i
  · subst hj
    have hat : s.announcedAt j = false := by rw [NameState.announcedAt, hold]; rfl
    rw [hat, NameState.announcedAt]
    rcases hnew with hnew | ⟨hclaim, rfl⟩
    · simp [NameState.setSlot, NameState.setPublisher, hnew]
    · simp [NameState.setSlot, NameState.setPublisher, hclaim]
  · have hslot : ((s.setSlot i slot).setPublisher p pc).slots j = s.slots j := Function.update_of_ne hj _ _
    rw [NameState.announcedAt, NameState.announcedAt, hslot]
    simp only [NameState.setSlot, NameState.setPublisher, update_eq_bump (hbefore j) (hafter j hj)]

/-- What a step of a call does: move on, store into a slot that is not readable yet, or bump. -/
theorem publishStep_kinds (h : NameInv publications maxNames wanted s)
    (hs : s.publishStep maxNames (publications p) p = some s') :
    (∃ pc, s' = s.setPublisher p pc ∧ (∀ j, s.publishers p ≠ .bump j) ∧ ∀ j, pc ≠ .bump j) ∨
    (∃ i slot pc, s' = (s.setSlot i slot).setPublisher p pc ∧ (∀ j, s.publishers p ≠ .bump j) ∧
      (s.slots i).readable = false ∧ (∀ j, j ≠ i → pc ≠ .bump j) ∧
      (slot.readable = false ∨ slot.claimant = some p ∧ pc = .bump i)) ∨
    ∃ i, s' = { s.setPublisher p (.done true) with generation := s.generation + 1 } ∧ s.publishers p = .bump i := by
  have hp := h.publishers p
  have hw := (publications p).isWant
  unfold NameState.publishStep at hs
  cases hpc : s.publishers p with
  | idle =>
      rw [hpc] at hs
      cases hs
      exact Or.inl ⟨_, rfl, by simp, by simp⟩
  | load i =>
      rw [hpc] at hs
      simp only at hs
      split at hs
      · cases hs
        exact Or.inl ⟨_, rfl, by simp, examine_ne_bump _ _ _ _⟩
      · cases hs
        exact Or.inl ⟨_, rfl, by simp, by simp⟩
  | await i n lost =>
      rw [hpc] at hs
      simp only at hs
      split at hs
      · cases hs
        exact Or.inl ⟨_, rfl, by simp, by simp⟩
      · cases hs
        exact Or.inl ⟨_, rfl, by simp, resolve_ne_bump _ _ _ _⟩
  | cas i =>
      rw [hpc] at hs
      simp only at hs
      split at hs
      · rename_i hfree
        cases hs
        refine Or.inr (Or.inl ⟨i, _, _, rfl, by simp, ?_, by simp, Or.inl ?_⟩)
        · simp [NameSlot.readable, hfree]
        · simp [NameSlot.readable, hw.claimed]
      · cases hs
        exact Or.inl ⟨_, rfl, by simp, examine_ne_bump _ _ _ _⟩
  | write i j =>
      rw [hpc] at hs hp
      obtain ⟨-, hword, -, -⟩ := hp
      have hold : (s.slots i).readable = false := by simp [NameSlot.readable, hword, hw.claimed]
      simp only at hs
      split at hs
      · cases hs
        exact Or.inr (Or.inl ⟨i, _, _, rfl, by simp, hold, by simp, Or.inl hold⟩)
      · cases hs
        exact Or.inr (Or.inl ⟨i, _, _, rfl, by simp, hold, by simp, Or.inl hold⟩)
  | store i =>
      rw [hpc] at hs hp
      cases hs
      obtain ⟨hclaim, hword, -⟩ := hp
      have hold : (s.slots i).readable = false := by simp [NameSlot.readable, hword, hw.claimed]
      refine Or.inr (Or.inl ⟨i, _, _, rfl, by simp, hold, fun j hj => ?_, Or.inr ⟨hclaim, rfl⟩⟩)
      simpa using hj.symm
  | bump i =>
      rw [hpc] at hs
      cases hs
      exact Or.inr (Or.inr ⟨i, rfl, rfl⟩)
  | compare i read =>
      rw [hpc] at hs
      simp only at hs
      split at hs
      · cases hs
        exact Or.inl ⟨_, rfl, by simp, by simp⟩
      · cases hs
        exact Or.inl ⟨_, rfl, by simp, by simp⟩
  | done result => rw [hpc] at hs; cases hs

/-- A step of a call raises the generation by what it announces. -/
theorem generation_publishStep (h : NameInv publications maxNames wanted s)
    (hs : s.publishStep maxNames (publications p) p = some s') :
    s'.generation + s.announced maxNames = s.generation + s'.announced maxNames := by
  have hsame : (∀ j, s'.announcedAt j = s.announcedAt j) → s'.announced maxNames = s.announced maxNames := by
    intro hat
    exact count_congr fun i _ => by rw [hat i]
  rcases publishStep_kinds h hs with ⟨pc, rfl, hbefore, hafter⟩ | ⟨i, slot, pc, rfl, hbefore, hold, hafter, hnew⟩ |
    ⟨i, rfl, hpc⟩
  · rw [hsame fun j => announcedAt_setPublisher (hbefore j) (hafter j)]
    rfl
  · rw [hsame (announcedAt_setSlot hbefore hold hafter hnew)]
    rfl
  · have hp := h.publishers p
    have hw := (publications p).isWant
    rw [hpc] at hp
    obtain ⟨hclaim, hword⟩ := hp
    have hused : (s.slots i).keyPlusOne ≠ 0 := by rw [hword]; exact hw.pos
    have hreadable : (s.slots i).readable = true := by simp [NameSlot.readable, hword, hw.pos, hw.free]
    have hcount := count_insert (P := fun i => s.announcedAt i = true)
      (Q := fun i => (s.setPublisher p (.done true)).announcedAt i = true) (h.range i hused) ?_ ?_ ?_
    · show s.generation + 1 + s.announced maxNames = s.generation + (s.setPublisher p (.done true)).announced maxNames
      rw [NameState.announced, NameState.announced, hcount]
      omega
    · simp [NameState.announcedAt, hclaim, hpc]
    · simp [NameState.announcedAt, NameState.setPublisher, hreadable, hclaim]
    · intro j hj
      have hother : s.publishers p ≠ .bump j := by simpa [hpc] using hj.symm
      rw [announcedAt_setPublisher hother (by simp)]

omit [DecidableEq Caller] in
/-- A lookup writes nothing. -/
theorem lookupStep_only [DecidableEq Reader] {want : UInt64} {q : Reader} (hs : s.lookupStep maxNames want q = some s') :
    ∃ lookups, s' = { s with lookups := lookups } := by
  unfold NameState.lookupStep at hs
  cases hpc : s.lookups q with
  | idle => rw [hpc] at hs; cases hs; exact ⟨_, rfl⟩
  | load i =>
      rw [hpc] at hs
      simp only at hs
      split_ifs at hs <;> cases hs <;> exact ⟨_, rfl⟩
  | read i read =>
      rw [hpc] at hs
      simp only at hs
      split_ifs at hs <;> cases hs <;> exact ⟨_, rfl⟩
  | done r => rw [hpc] at hs; cases hs

theorem generation_step [DecidableEq Reader] (h : NameInv publications maxNames wanted s) {a : NameAction Caller Reader}
    (hs : (nameSystem maxNames publications wanted).step a s = some s') :
    s'.generation + s.announced maxNames = s.generation + s'.announced maxNames := by
  cases a with
  | publish p => exact generation_publishStep h hs
  | lookup q =>
      obtain ⟨lookups, rfl⟩ := lookupStep_only hs
      rfl

end Steps

/-! ## Counts -/

section Runs

variable [DecidableEq Caller] [DecidableEq Reader] [DecidableEq Counter]
  {publications : Caller → Publication nameCapacity} {maxNames : Nat} {wanted : Reader → UInt32 × UInt8}
  {s₀ s s' : CountState Caller Reader Counter}

/-- What a count knows that began with `before` slots claimed. -/
def CountHolds (maxNames before : Nat) (names : NameState Caller Reader) : CountPc → Prop
  | .idle => True
  | .load n => n ≤ maxNames ∧ ∀ i, i < n → (names.slots i).keyPlusOne ≠ 0
  | .done n => n ≤ maxNames ∧ (∀ i, i < n → (names.slots i).keyPlusOne ≠ 0) ∧ before ≤ n

omit [DecidableEq Caller] [DecidableEq Reader] in
theorem CountHolds.mono {before : Nat} {names names' : NameState Caller Reader} {pc : CountPc}
    (h : CountHolds maxNames before names pc)
    (hkept : ∀ i, (names.slots i).keyPlusOne ≠ 0 → (names'.slots i).keyPlusOne ≠ 0) :
    CountHolds maxNames before names' pc := by
  cases pc with
  | idle => trivial
  | load n => exact ⟨h.1, fun i hi => hkept i (h.2 i hi)⟩
  | done n => exact ⟨h.1, fun i hi => hkept i (h.2.1 i hi), h.2.2⟩

/-- What holds on the way of a run. -/
structure CountInv (publications : Caller → Publication nameCapacity) (maxNames : Nat) (wanted : Reader → UInt32 × UInt8)
    (generation : Nat) (s : CountState Caller Reader Counter) : Prop where
  names : NameInv publications maxNames wanted s.names
  generation : s.names.generation = generation + s.names.announced maxNames

theorem CountInv.step {generation : Nat} (h : CountInv publications maxNames wanted generation s)
    {a : CountAction Caller Reader Counter} (hs : (countSystem maxNames publications wanted).step a s = some s') :
    CountInv publications maxNames wanted generation s' ∧
      (∀ i, (s.names.slots i).keyPlusOne ≠ 0 → (s'.names.slots i).keyPlusOne ≠ 0) ∧
      ∀ before q, before ≤ s.names.claimed maxNames → CountHolds maxNames before s.names (s.counts q) →
        CountHolds maxNames before s'.names (s'.counts q) := by
  cases a with
  | names a =>
      obtain ⟨names, hstep, rfl⟩ := Option.map_eq_some_iff.mp hs
      obtain ⟨hinv, hkept⟩ := h.names.step hstep
      have hgen := generation_step h.names hstep
      have hbefore := h.generation
      refine ⟨⟨hinv, ?_⟩, fun i => (hkept i).used, fun before q _ hq => hq.mono fun i => (hkept i).used⟩
      show names.generation = generation + names.announced maxNames
      omega
  | count q =>
      have hgoto : ∀ pc, (∀ before, before ≤ s.names.claimed maxNames → CountHolds maxNames before s.names (s.counts q) →
          CountHolds maxNames before s.names pc) → s' = { s with counts := Function.update s.counts q pc } →
          CountInv publications maxNames wanted generation s' ∧
            (∀ i, (s.names.slots i).keyPlusOne ≠ 0 → (s'.names.slots i).keyPlusOne ≠ 0) ∧
            ∀ before q, before ≤ s.names.claimed maxNames → CountHolds maxNames before s.names (s.counts q) →
              CountHolds maxNames before s'.names (s'.counts q) := by
        rintro pc hpc rfl
        refine ⟨⟨h.names, h.generation⟩, fun _ hi => hi, fun before q' hle hq' => ?_⟩
        by_cases hqq : q' = q
        · subst hqq
          simp only [Function.update_self]
          exact hpc before hle hq'
        · simp only [Function.update_of_ne hqq]
          exact hq'
      simp only [countSystem, CountState.countStep] at hs
      cases hpc : s.counts q with
      | idle =>
          rw [hpc] at hs hgoto
          exact hgoto (.load 0) (fun _ _ _ => ⟨Nat.zero_le _, fun i hi => absurd hi (Nat.not_lt_zero i)⟩)
            (Option.some.inj hs).symm
      | load n =>
          rw [hpc] at hs hgoto
          refine hgoto _ (fun before hle hload => ?_) (Option.some.inj hs).symm
          obtain ⟨hn, hused⟩ := hload
          split
          · rename_i hmore
            refine ⟨hmore.1, fun i hi => ?_⟩
            rcases Nat.lt_succ_iff_lt_or_eq.mp hi with hlt | rfl
            · exact hused i hlt
            · exact hmore.2
          · rename_i hstop
            -- the scan ends at a free slot, or has passed them all
            refine ⟨hn, hused, hle.trans ?_⟩
            by_cases hlt : n < maxNames
            · exact count_le_of_free (P := fun i => (s.names.slots i).keyPlusOne ≠ 0) h.names.dense
                fun hu => hstop ⟨hlt, hu⟩
            · exact (Nat.count_le _).trans (Nat.not_lt.mp hlt)
      | done n => rw [hpc] at hs; cases hs

theorem countInv_runs {generation : Nat} (h : CountInv publications maxNames wanted generation s)
    (hs : (countSystem maxNames publications wanted).Runs s s') :
    CountInv publications maxNames wanted generation s' ∧
      (∀ i, (s.names.slots i).keyPlusOne ≠ 0 → (s'.names.slots i).keyPlusOne ≠ 0) ∧
      ∀ q, s.counts q = .idle → CountHolds maxNames (s.names.claimed maxNames) s'.names (s'.counts q) := by
  induction hs with
  | refl => exact ⟨h, fun _ hi => hi, fun q hq => by rw [hq]; trivial⟩
  | step a _ hstep ih =>
      obtain ⟨hinv, hkept, hcounts⟩ := ih
      obtain ⟨hinv', hkept', hcounts'⟩ := hinv.step hstep
      have hgrown := Nat.count_mono_left (n := maxNames) fun i _ => hkept i
      exact ⟨hinv', fun i hi => hkept' i (hkept i hi), fun q hq => hcounts' _ q hgrown (hcounts q hq)⟩

/-- However publishers, lookups and counts interleave: the used slots are those before `claimed`; the generation has gone
up once for each readable name but those whose publisher is between its key and its bump; and a count returns a number
between what was claimed when it began and what is when it ends. -/
theorem names_are_counted (publications : Caller → Publication nameCapacity) (maxNames : Nat)
    (wanted : Reader → UInt32 × UInt8) (s₀ s s' : CountState Caller Reader Counter)
    (h₀ : (countSystem maxNames publications wanted).Init s₀) (hs : (countSystem maxNames publications wanted).Runs s₀ s)
    (hs' : (countSystem maxNames publications wanted).Runs s s') :
    (∀ i, (s.names.slots i).keyPlusOne ≠ 0 ↔ i < s.names.claimed maxNames) ∧
    (s.names.generation = s₀.names.generation + s.names.announced maxNames ∧
      s.names.announced maxNames ≤ s.names.readable maxNames ∧ s.names.readable maxNames ≤ s.names.claimed maxNames ∧
      ((∀ p i, s.names.publishers p ≠ .bump i) → s.names.announced maxNames = s.names.readable maxNames)) ∧
    ∀ q n, s.counts q = .idle → s'.counts q = .done n →
      s.names.claimed maxNames ≤ n ∧ n ≤ s'.names.claimed maxNames := by
  have hnone : s₀.names.announced maxNames = 0 := by
    refine Nat.count_of_forall_not fun i _ => ?_
    simp [NameState.announcedAt, NameSlot.readable, (h₀.1.1 i).1]
  have hinit : CountInv publications maxNames wanted s₀.names.generation s₀ :=
    ⟨nameInv_reachable (.init h₀.1), by rw [hnone, Nat.add_zero]⟩
  obtain ⟨hinv, -, -⟩ := countInv_runs hinit hs
  refine ⟨dense_iff_lt_count hinv.names.dense hinv.names.range, ⟨hinv.generation, ?_, ?_, fun hpast => ?_⟩,
    fun q n hq hdone => ?_⟩
  · exact Nat.count_mono_left fun i _ hi => (Bool.and_eq_true_iff.mp hi).1
  · refine Nat.count_mono_left fun i _ hi => ?_
    simpa using (Bool.and_eq_true_iff.mp hi).1
  · refine count_congr fun i _ => ?_
    simp [NameState.announcedAt, hpast]
  · obtain ⟨-, -, hcounts⟩ := countInv_runs hinv hs'
    have hheld := hcounts q hq
    rw [hdone] at hheld
    exact ⟨hheld.2.2, le_count_of_used hheld.1 hheld.2.1⟩

end Runs

/-- Two publishers of different keys, and a count that begins when the first name is published and meets the claim of the
second. -/
def countedNames : Bool → Publication 64
  | false => ⟨7, 3, [80, 81], by decide, by decide⟩
  | true => ⟨8, 1, [82], by decide, by decide⟩

def countedStart : CountState Bool Unit Unit :=
  ⟨⟨fun _ => ⟨0, fun _ => 0, none⟩, 0, fun _ => .idle, fun _ => .idle⟩, fun _ => .idle⟩

def countedFirst : List (CountAction Bool Unit Unit) := List.replicate 7 (.names (.publish false))

def countedSecond : List (CountAction Bool Unit Unit) :=
  [.count (), .count (), .names (.publish false)] ++ List.replicate 4 (.names (.publish true)) ++ [.count (), .count ()]

def countedMiddle : CountState Bool Unit Unit :=
  ((countSystem 4 countedNames fun _ => (7, 3)).run countedFirst countedStart).get (by decide +kernel)

def countedEnd : CountState Bool Unit Unit :=
  ((countSystem 4 countedNames fun _ => (7, 3)).run countedSecond countedMiddle).get (by decide +kernel)

theorem names_are_counted_countedNames :
    countedMiddle.names.generation = 0 ∧ countedMiddle.names.readable 4 = 1 ∧ countedEnd.counts () = .done 2 ∧
      countedMiddle.names.claimed 4 ≤ 2 ∧ 2 ≤ countedEnd.names.claimed 4 ∧
      countedMiddle.names.generation = 0 + countedMiddle.names.announced 4 := by
  have hfirst : (countSystem 4 countedNames fun _ => (7, 3)).run countedFirst countedStart = some countedMiddle :=
    (Option.some_get _).symm
  have hsecond : (countSystem 4 countedNames fun _ => (7, 3)).run countedSecond countedMiddle = some countedEnd :=
    (Option.some_get _).symm
  have hdone : countedEnd.counts () = .done 2 := by decide +kernel
  have h := names_are_counted countedNames 4 (fun _ : Unit => (7, 3)) countedStart countedMiddle countedEnd
    ⟨⟨fun _ => ⟨rfl, rfl⟩, fun _ => rfl, fun _ => rfl⟩, fun _ => rfl⟩ (.of_run hfirst) (.of_run hsecond)
  have hcount := h.2.2 () 2 (by decide +kernel) hdone
  exact ⟨by decide +kernel, by decide +kernel, hdone, hcount.1, hcount.2, h.2.1.1⟩

end SlickPerfmon
