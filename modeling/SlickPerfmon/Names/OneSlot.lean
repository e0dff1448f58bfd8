import SlickPerfmon.Names.NameTable
import Mathlib.Data.List.Infix

/-!
# One key, one slot, one name

A used slot never changes its key, and a published one never changes at all. So a scan that has passed the slots
before `i` knows them forever: all in use, none of them for its own key. A slot claimed at `i` is then the only
one of its key, and the name written under the claim is the only name of that key.
-/

namespace SlickPerfmon

open Library

variable {nameCapacity : Nat} {Caller Reader : Type}

/-! ## Slots -/

/-- The slot's bytes spell `name`, terminator included. -/
def Whole (slot : NameSlot Caller) (name : List UInt8) : Prop :=
  (∀ j (h : j < name.length), slot.name j = name[j]) ∧ slot.name name.length = 0

theorem Whole.read {slot : NameSlot Caller} {name read : List UInt8} (h : Whole slot name) (hnul : 0 ∉ name)
    (hread : read <+: name) :
    if slot.name read.length = 0 then read = name else read ++ [slot.name read.length] <+: name := by
  obtain ⟨rest, rfl⟩ := hread
  cases rest with
  | nil =>
      have hz := h.2
      rw [List.append_nil] at hz
      rw [if_pos hz, List.append_nil]
  | cons b rest =>
      have hb : slot.name read.length = b := by
        rw [h.1 read.length (by simp)]
        simp
      have hne : b ≠ 0 := by
        rintro rfl
        exact hnul (by simp)
      rw [hb, if_neg hne]
      exact ⟨rest, by simp⟩

/-- What one step may do to a slot. -/
structure Kept (slot slot' : NameSlot Caller) : Prop where
  used : slot.keyPlusOne ≠ 0 → slot'.keyPlusOne ≠ 0
  key : slot.keyPlusOne ≠ 0 → keyOf slot'.keyPlusOne = keyOf slot.keyPlusOne
  claimant : slot.keyPlusOne ≠ 0 → slot'.claimant = slot.claimant
  published : slot.keyPlusOne ≠ 0 → isClaimed slot.keyPlusOne = false → slot' = slot

theorem Kept.refl (slot : NameSlot Caller) : Kept slot slot :=
  ⟨fun h => h, fun _ => rfl, fun _ => rfl, fun _ _ => rfl⟩

theorem Kept.trans {a b c : NameSlot Caller} (h : Kept a b) (h' : Kept b c) : Kept a c where
  used hu := h'.used (h.used hu)
  key hu := (h'.key (h.used hu)).trans (h.key hu)
  claimant hu := (h'.claimant (h.used hu)).trans (h.claimant hu)
  published hu hc := by
    have hb := h.published hu hc
    subst hb
    exact h'.published hu hc

/-! ## The invariant -/

section Invariant

variable (publications : Caller → Publication nameCapacity)

/-- A slot is free, claimed for the key of its claimant, or published with the claimant's whole name. -/
inductive SlotHolds (slot : NameSlot Caller) : Prop
  | free (hword : slot.keyPlusOne = 0) (hnone : slot.claimant = none)
  | claimed (c : Caller) (hc : slot.claimant = some c)
      (hword : slot.keyPlusOne = (publications c).want ||| kClaimBit)
  | published (c : Caller) (hc : slot.claimant = some c) (hword : slot.keyPlusOne = (publications c).want)
      (hwhole : Whole slot (publications c).name)

/-- The slots before `i` are in use, for other keys. -/
def ScannedTo (slots : Nat → NameSlot Caller) (want : UInt64) (i : Nat) : Prop :=
  ∀ j, j < i → (slots j).keyPlusOne ≠ 0 ∧ keyOf (slots j).keyPlusOne ≠ want

/-- What a call of `publish_one` knows of the table where it stands. -/
def PublishHolds (maxNames : Nat) (slots : Nat → NameSlot Caller) (p : Caller) : PublishPc → Prop
  | .idle => True
  | .load i => ScannedTo slots (publications p).want i
  | .await i _ _ => ScannedTo slots (publications p).want i ∧ i < maxNames ∧
      keyOf (slots i).keyPlusOne = (publications p).want
  | .cas i => ScannedTo slots (publications p).want i ∧ i < maxNames
  | .write i j => (slots i).claimant = some p ∧ (slots i).keyPlusOne = (publications p).want ||| kClaimBit ∧
      j ≤ (publications p).name.length ∧
      ∀ n, n < j → ∀ h : n < (publications p).name.length, (slots i).name n = (publications p).name[n]
  | .store i => (slots i).claimant = some p ∧ (slots i).keyPlusOne = (publications p).want ||| kClaimBit ∧
      Whole (slots i) (publications p).name
  | .bump i => (slots i).claimant = some p ∧ (slots i).keyPlusOne = (publications p).want
  | .compare i read => (slots i).keyPlusOne = (publications p).want ∧
      ∃ c, (slots i).claimant = some c ∧ read <+: (publications c).name
  | .done true => ∃ i c, (slots i).keyPlusOne = (publications p).want ∧ (slots i).claimant = some c ∧
      (publications c).name = (publications p).name
  | .done false => True

/-- What a lookup of the key of the word `want` knows. -/
def LookupHolds (slots : Nat → NameSlot Caller) (want : UInt64) : LookupPc → Prop
  | .idle => True
  | .load _ => True
  | .read i read => (slots i).keyPlusOne = want ∧
      ∃ c, (slots i).claimant = some c ∧ read <+: (publications c).name
  | .done r => r = [] ∨ ∃ i c, (slots i).keyPlusOne = want ∧ (slots i).claimant = some c ∧
      r = (publications c).name

structure NameInv (maxNames : Nat) (wanted : Reader → UInt32 × UInt8) (s : NameState Caller Reader) :
    Prop where
  slots : ∀ i, SlotHolds publications (s.slots i)
  range : ∀ i, (s.slots i).keyPlusOne ≠ 0 → i < maxNames
  dense : ∀ i j, i < j → (s.slots j).keyPlusOne ≠ 0 → (s.slots i).keyPlusOne ≠ 0
  unique : ∀ i j, (s.slots i).keyPlusOne ≠ 0 → keyOf (s.slots i).keyPlusOne = keyOf (s.slots j).keyPlusOne →
    i = j
  publishers : ∀ p, PublishHolds publications maxNames s.slots p (s.publishers p)
  lookups : ∀ q, LookupHolds publications s.slots (nameKey (wanted q).1 (wanted q).2 + 1) (s.lookups q)

end Invariant

section Slots

variable {publications : Caller → Publication nameCapacity} {maxNames : Nat}
  {slots slots' : Nat → NameSlot Caller} {want : UInt64} {i : Nat} {p : Caller}

theorem keyOf_zero : keyOf 0 = 0 := by decide

theorem Publication.isWant (c : Publication nameCapacity) : IsWant c.want := isWant_nameKey _ _

theorem used_of_keyOf (hw : IsWant want) {w : UInt64} (h : keyOf w = want) : w ≠ 0 := by
  rintro rfl
  rw [keyOf_zero] at h
  exact hw.pos h.symm

/-- A used slot that is not claimed holds the word of its key, and is published. -/
theorem SlotHolds.word {slot : NameSlot Caller} (h : SlotHolds publications slot) (hw : IsWant want)
    (hkey : keyOf slot.keyPlusOne = want) (hclaim : isClaimed slot.keyPlusOne = false) :
    slot.keyPlusOne = want ∧ ∃ c, slot.claimant = some c := by
  cases h with
  | free hword _ => exact absurd hword (used_of_keyOf hw hkey)
  | claimed c hc hword =>
      rw [hword, (publications c).isWant.claimed] at hclaim
      cases hclaim
  | published c hc hword _ =>
      rw [hword, (publications c).isWant.keyOf] at hkey
      exact ⟨hword.trans hkey, c, hc⟩

/-- A published slot has its claimant's key and whole name. -/
theorem SlotHolds.whole {slot : NameSlot Caller} (h : SlotHolds publications slot) (hw : IsWant want)
    (hword : slot.keyPlusOne = want) {c : Caller} (hc : slot.claimant = some c) :
    (publications c).want = want ∧ Whole slot (publications c).name := by
  cases h with
  | free hfree _ => rw [hword] at hfree; exact absurd hfree hw.pos
  | claimed c' _ hclaim =>
      have hfree := hw.free
      rw [← hword, hclaim, (publications c').isWant.claimed] at hfree
      cases hfree
  | published c' hc' hword' hwhole =>
      rw [hc] at hc'
      cases hc'
      exact ⟨hword'.symm.trans hword, hwhole⟩

theorem Kept.word {slot slot' : NameSlot Caller} (h : Kept slot slot') (hw : IsWant want)
    (hword : slot.keyPlusOne = want) : slot' = slot :=
  h.published (by rw [hword]; exact hw.pos) (by rw [hword]; exact hw.free)

theorem ScannedTo.mono (h : ScannedTo slots want i) (hk : ∀ j, Kept (slots j) (slots' j)) :
    ScannedTo slots' want i := fun j hj =>
  ⟨(hk j).used (h j hj).1, by rw [(hk j).key (h j hj).1]; exact (h j hj).2⟩

theorem ScannedTo.succ (h : ScannedTo slots want i) (hu : (slots i).keyPlusOne ≠ 0)
    (hkey : keyOf (slots i).keyPlusOne ≠ want) : ScannedTo slots want (i + 1) := by
  intro j hj
  rcases Nat.lt_or_eq_of_le (Nat.le_of_lt_succ hj) with hlt | rfl
  · exact h j hlt
  · exact ⟨hu, hkey⟩

/-- What a call knows stays true while others step, since they leave its own claimed slot alone. -/
theorem PublishHolds.mono {pc : PublishPc} (h : PublishHolds publications maxNames slots p pc)
    (hk : ∀ j, Kept (slots j) (slots' j)) (hown : ∀ j, (slots j).claimant = some p → slots' j = slots j) :
    PublishHolds publications maxNames slots' p pc := by
  have hw := (publications p).isWant
  cases pc with
  | idle => trivial
  | load i => exact ScannedTo.mono h hk
  | await i n lost =>
      obtain ⟨hs, hi, hkey⟩ := h
      exact ⟨hs.mono hk, hi, by rw [(hk i).key (used_of_keyOf hw hkey)]; exact hkey⟩
  | cas i => exact ⟨h.1.mono hk, h.2⟩
  | write i j =>
      obtain ⟨hc, hrest⟩ := h
      simp only [PublishHolds, hown i hc]
      exact ⟨hc, hrest⟩
  | store i =>
      obtain ⟨hc, hrest⟩ := h
      simp only [PublishHolds, hown i hc]
      exact ⟨hc, hrest⟩
  | bump i =>
      obtain ⟨hc, hword⟩ := h
      simp only [PublishHolds, hown i hc]
      exact ⟨hc, hword⟩
  | compare i read =>
      obtain ⟨hword, hrest⟩ := h
      simp only [PublishHolds, (hk i).word hw hword]
      exact ⟨hword, hrest⟩
  | done result =>
      cases result with
      | false => trivial
      | true =>
          obtain ⟨i, c, hword, hrest⟩ := h
          refine ⟨i, c, ?_⟩
          rw [(hk i).word hw hword]
          exact ⟨hword, hrest⟩

theorem LookupHolds.mono {pc : LookupPc} (hw : IsWant want) (h : LookupHolds publications slots want pc)
    (hk : ∀ j, Kept (slots j) (slots' j)) : LookupHolds publications slots' want pc := by
  cases pc with
  | idle => trivial
  | load i => trivial
  | read i read =>
      obtain ⟨hword, hrest⟩ := h
      simp only [LookupHolds, (hk i).word hw hword]
      exact ⟨hword, hrest⟩
  | done r =>
      rcases h with h | ⟨i, c, hword, hrest⟩
      · exact Or.inl h
      · refine Or.inr ⟨i, c, ?_⟩
        rw [(hk i).word hw hword]
        exact ⟨hword, hrest⟩

/-- The decision taken on a value of slot `i`. -/
theorem publishHolds_resolve (hslot : SlotHolds publications (slots i)) (hi : i < maxNames)
    (hs : ScannedTo slots (publications p).want i) {lost : Bool}
    (hlost : lost = true → (slots i).keyPlusOne ≠ 0) :
    PublishHolds publications maxNames slots p (resolve (publications p).want (slots i).keyPlusOne i lost) := by
  have hw := (publications p).isWant
  unfold resolve
  by_cases hkey : keyOf (slots i).keyPlusOne = (publications p).want
  · rw [if_pos hkey]
    cases hclaim : isClaimed (slots i).keyPlusOne with
    | true => trivial
    | false =>
        obtain ⟨hword, c, hc⟩ := hslot.word hw hkey hclaim
        exact ⟨hword, c, hc, List.nil_prefix⟩
  · rw [if_neg hkey]
    cases lost with
    | true => exact hs.succ (hlost rfl) hkey
    | false =>
        by_cases hu : (slots i).keyPlusOne = 0
        · rw [if_neg (by simp), if_neg (by simpa using hu)]
          exact ⟨hs, hi⟩
        · rw [if_neg (by simp), if_pos hu]
          exact hs.succ hu hkey

theorem publishHolds_examine (hslot : SlotHolds publications (slots i)) (hi : i < maxNames)
    (hs : ScannedTo slots (publications p).want i) {lost : Bool}
    (hlost : lost = true → (slots i).keyPlusOne ≠ 0) :
    PublishHolds publications maxNames slots p (examine (publications p).want (slots i).keyPlusOne i lost) := by
  unfold examine
  split
  · rename_i h; exact ⟨hs, hi, h.2⟩
  · exact publishHolds_resolve hslot hi hs hlost

theorem SlotHolds.keyOf_ne_zero {slot : NameSlot Caller} (h : SlotHolds publications slot)
    (hu : slot.keyPlusOne ≠ 0) : keyOf slot.keyPlusOne ≠ 0 := by
  cases h with
  | free hword _ => exact absurd hword hu
  | claimed c _ hword => rw [hword, (publications c).isWant.keyOf_claim]; exact (publications c).isWant.pos
  | published c _ hword _ => rw [hword, (publications c).isWant.keyOf]; exact (publications c).isWant.pos

end Slots

/-! ## Steps -/

section Steps

variable [DecidableEq Caller] {publications : Caller → Publication nameCapacity}
  {maxNames : Nat} {wanted : Reader → UInt32 × UInt8} {s s' : NameState Caller Reader} {p : Caller}

/-- A step that only moves a call keeps everything if the call knows what it needs. -/
theorem NameInv.setPublisher (h : NameInv publications maxNames wanted s) {pc : PublishPc}
    (hpc : PublishHolds publications maxNames s.slots p pc) :
    NameInv publications maxNames wanted (s.setPublisher p pc) where
  slots := h.slots
  range := h.range
  dense := h.dense
  unique := h.unique
  publishers p' := by
    simp only [NameState.setPublisher, Function.update_apply]
    split
    · rename_i hp; subst hp; exact hpc
    · exact h.publishers p'
  lookups := h.lookups

/-- The call `p` rewrites slot `i`, which it holds or takes free after passing all the slots before it. -/
theorem NameInv.setSlot (h : NameInv publications maxNames wanted s) {i : Nat} {slot : NameSlot Caller}
    {pc : PublishPc} (hi : i < maxNames) (hk : Kept (s.slots i) slot)
    (hslot : SlotHolds publications slot) (hu : slot.keyPlusOne ≠ 0)
    (hfree : (s.slots i).keyPlusOne = 0 → ScannedTo s.slots (keyOf slot.keyPlusOne) i)
    (hown : (s.slots i).keyPlusOne ≠ 0 → (s.slots i).claimant = some p)
    (hpc : PublishHolds publications maxNames (Function.update s.slots i slot) p pc) :
    NameInv publications maxNames wanted ((s.setSlot i slot).setPublisher p pc) := by
  set slots' := Function.update s.slots i slot with hslots'
  have hat : ∀ j, j ≠ i → slots' j = s.slots j := fun j hj => Function.update_of_ne hj _ _
  have hself : slots' i = slot := Function.update_self ..
  have hkept : ∀ j, Kept (s.slots j) (slots' j) := by
    intro j
    by_cases hj : j = i
    · rw [hj, hself]; exact hk
    · rw [hat j hj]; exact Kept.refl _
  -- no used slot other than `i` has the key of the rewritten slot
  have hother : ∀ b, b ≠ i → (s.slots b).keyPlusOne ≠ 0 →
      keyOf (s.slots b).keyPlusOne ≠ keyOf slot.keyPlusOne := by
    intro b hb hub he
    by_cases hui : (s.slots i).keyPlusOne = 0
    · rcases Nat.lt_or_gt_of_ne hb with hlt | hgt
      · exact (hfree hui b hlt).2 he
      · exact h.dense i b hgt hub hui
    · exact hb (h.unique b i hub (he.trans (hk.key hui)))
  exact
    { slots := by
        intro j
        by_cases hj : j = i
        · show SlotHolds publications (slots' j)
          rw [hj, hself]; exact hslot
        · show SlotHolds publications (slots' j)
          rw [hat j hj]; exact h.slots j
      range := by
        intro j huj
        by_cases hj : j = i
        · rw [hj]; exact hi
        · exact h.range j (by rw [← hat j hj]; exact huj)
      dense := by
        intro a b hab hub
        show (slots' a).keyPlusOne ≠ 0
        by_cases ha : a = i
        · rw [ha, hself]; exact hu
        · rw [hat a ha]
          by_cases hb : b = i
          · subst hb
            by_cases hub' : (s.slots b).keyPlusOne = 0
            · exact (hfree hub' a hab).1
            · exact h.dense a b hab hub'
          · have hub' : (slots' b).keyPlusOne ≠ 0 := hub
            rw [hat b hb] at hub'
            exact h.dense a b hab hub'
      unique := by
        intro a b hua he
        have hua' : (slots' a).keyPlusOne ≠ 0 := hua
        have he' : keyOf (slots' a).keyPlusOne = keyOf (slots' b).keyPlusOne := he
        by_cases ha : a = i
        · by_cases hb : b = i
          · rw [ha, hb]
          · rw [ha, hself, hat b hb] at he'
            refine absurd he'.symm (hother b hb ?_)
            intro hz
            rw [hz, keyOf_zero] at he'
            exact hslot.keyOf_ne_zero hu he'
        · rw [hat a ha] at hua' he'
          by_cases hb : b = i
          · rw [hb, hself] at he'
            exact absurd he' (hother a ha hua')
          · rw [hat b hb] at he'
            exact h.unique a b hua' he'
      publishers := by
        intro p'
        simp only [NameState.setPublisher, NameState.setSlot, Function.update_apply]
        split
        · rename_i hp; subst hp; exact hpc
        · rename_i hp
          refine (h.publishers p').mono hkept fun j hj => ?_
          refine hat j ?_
          rintro rfl
          by_cases hui : (s.slots j).keyPlusOne = 0
          · cases h.slots j with
            | free _ hnone => rw [hnone] at hj; cases hj
            | claimed c _ hword => rw [hui] at hword; exact (publications c).isWant.claim_pos hword.symm
            | published c _ hword _ => rw [hui] at hword; exact (publications c).isWant.pos hword.symm
          · rw [hown hui] at hj
            cases hj
            exact hp rfl
      lookups := fun q => (h.lookups q).mono (isWant_nameKey _ _) hkept }

theorem kept_setPublisher (pc : PublishPc) (j : Nat) : Kept (s.slots j) ((s.setPublisher p pc).slots j) :=
  Kept.refl _

theorem kept_setSlot {i : Nat} {slot : NameSlot Caller} {pc : PublishPc} (hk : Kept (s.slots i) slot) (j : Nat) :
    Kept (s.slots j) (((s.setSlot i slot).setPublisher p pc).slots j) := by
  simp only [NameState.setPublisher, NameState.setSlot, Function.update_apply]
  split
  · rename_i hj; rw [hj]; exact hk
  · exact Kept.refl _

/-- The call takes slot `i`, which it found free. -/
theorem NameInv.claimSlot (h : NameInv publications maxNames wanted s) {i : Nat} (hi : i < maxNames)
    (hscan : ScannedTo s.slots (publications p).want i) (hfree : (s.slots i).keyPlusOne = 0) :
    NameInv publications maxNames wanted
        ((s.setSlot i ⟨(publications p).want ||| kClaimBit, (s.slots i).name, some p⟩).setPublisher p (.write i 0)) ∧
      Kept (s.slots i) ⟨(publications p).want ||| kClaimBit, (s.slots i).name, some p⟩ := by
  have hw := (publications p).isWant
  have hk : Kept (s.slots i) ⟨(publications p).want ||| kClaimBit, (s.slots i).name, some p⟩ :=
    ⟨fun hu => absurd hfree hu, fun hu => absurd hfree hu, fun hu => absurd hfree hu, fun hu => absurd hfree hu⟩
  refine ⟨h.setSlot hi hk (.claimed p rfl rfl) hw.claim_pos (fun _ => ?_) (fun hu => absurd hfree hu) ?_, hk⟩
  · rw [hw.keyOf_claim]; exact hscan
  · simp only [PublishHolds, Function.update_self, true_and]
    exact ⟨Nat.zero_le _, fun n hn => absurd hn (Nat.not_lt_zero n)⟩

/-- The call writes the name of slot `i`, which it has claimed. -/
theorem NameInv.writeName (h : NameInv publications maxNames wanted s) {i : Nat} {pc : PublishPc} {f : Nat → UInt8}
    (hc : (s.slots i).claimant = some p) (hword : (s.slots i).keyPlusOne = (publications p).want ||| kClaimBit)
    (hpc : PublishHolds publications maxNames (Function.update s.slots i { s.slots i with name := f }) p pc) :
    NameInv publications maxNames wanted ((s.setSlot i { s.slots i with name := f }).setPublisher p pc) ∧
      Kept (s.slots i) { s.slots i with name := f } := by
  have hw := (publications p).isWant
  have hu : (s.slots i).keyPlusOne ≠ 0 := by rw [hword]; exact hw.claim_pos
  have hk : Kept (s.slots i) { s.slots i with name := f } :=
    ⟨fun hu => hu, fun _ => rfl, fun _ => rfl, fun _ hn => by
      rw [hword, hw.claimed] at hn
      cases hn⟩
  exact ⟨h.setSlot (h.range i hu) hk (.claimed p hc hword) hu (fun hz => absurd hz hu) (fun _ => hc) hpc, hk⟩

/-- The call publishes slot `i`, whose name is whole. -/
theorem NameInv.storeKey (h : NameInv publications maxNames wanted s) {i : Nat}
    (hc : (s.slots i).claimant = some p) (hword : (s.slots i).keyPlusOne = (publications p).want ||| kClaimBit)
    (hwhole : Whole (s.slots i) (publications p).name) :
    NameInv publications maxNames wanted
        ((s.setSlot i { s.slots i with keyPlusOne := (publications p).want }).setPublisher p (.bump i)) ∧
      Kept (s.slots i) { s.slots i with keyPlusOne := (publications p).want } := by
  have hw := (publications p).isWant
  have hu : (s.slots i).keyPlusOne ≠ 0 := by rw [hword]; exact hw.claim_pos
  have hk : Kept (s.slots i) { s.slots i with keyPlusOne := (publications p).want } :=
    ⟨fun _ => hw.pos, fun _ => by rw [hword, hw.keyOf_claim, hw.keyOf], fun _ => rfl, fun _ hn => by
      rw [hword, hw.claimed] at hn
      cases hn⟩
  refine ⟨h.setSlot (h.range i hu) hk (.published p hc rfl hwhole) hw.pos (fun hz => absurd hz hu) (fun _ => hc) ?_, hk⟩
  simp only [PublishHolds, Function.update_self, and_true]
  exact hc

/-- Every step of a call keeps the invariant, and what it does to the slots is allowed. -/
theorem NameInv.publishStep (h : NameInv publications maxNames wanted s)
    (hs : s.publishStep maxNames (publications p) p = some s') :
    NameInv publications maxNames wanted s' ∧ ∀ j, Kept (s.slots j) (s'.slots j) := by
  have hp := h.publishers p
  have hw := (publications p).isWant
  unfold NameState.publishStep at hs
  cases hpc : s.publishers p with
  | idle =>
      rw [hpc] at hs
      cases hs
      exact ⟨h.setPublisher fun j hj => absurd hj (Nat.not_lt_zero j), kept_setPublisher _⟩
  | load i =>
      rw [hpc] at hs hp
      simp only at hs
      split at hs
      · rename_i hi
        cases hs
        exact ⟨h.setPublisher (publishHolds_examine (h.slots i) hi hp fun hl => by cases hl),
          kept_setPublisher _⟩
      · cases hs
        exact ⟨h.setPublisher trivial, kept_setPublisher _⟩
  | await i n lost =>
      rw [hpc] at hs hp
      simp only at hs
      obtain ⟨hscan, hi, hkey⟩ := hp
      split at hs
      · cases hs
        exact ⟨h.setPublisher ⟨hscan, hi, hkey⟩, kept_setPublisher _⟩
      · cases hs
        exact ⟨h.setPublisher (publishHolds_resolve (h.slots i) hi hscan fun _ => used_of_keyOf hw hkey),
          kept_setPublisher _⟩
  | cas i =>
      rw [hpc] at hs hp
      simp only at hs
      obtain ⟨hscan, hi⟩ := hp
      split at hs
      · rename_i hfree
        cases hs
        obtain ⟨hinv, hk⟩ := h.claimSlot hi hscan hfree
        exact ⟨hinv, kept_setSlot hk⟩
      · rename_i hu
        cases hs
        exact ⟨h.setPublisher (publishHolds_examine (h.slots i) hi hscan fun _ => hu), kept_setPublisher _⟩
  | write i j =>
      rw [hpc] at hs hp
      simp only at hs
      obtain ⟨hc, hword, hj, hbytes⟩ := hp
      split at hs
      · rename_i hlt
        cases hs
        have hpc' : PublishHolds publications maxNames (Function.update s.slots i { s.slots i with
            name := Function.update (s.slots i).name j (publications p).name[j] }) p (.write i (j + 1)) := by
          simp only [PublishHolds, Function.update_self]
          refine ⟨hc, hword, hlt, fun n hn hlen => ?_⟩
          by_cases hnj : n = j
          · subst hnj; exact Function.update_self ..
          · rw [Function.update_of_ne hnj]
            exact hbytes n (by omega) hlen
        obtain ⟨hinv, hk⟩ := h.writeName hc hword hpc'
        exact ⟨hinv, kept_setSlot hk⟩
      · rename_i hge
        cases hs
        have hpc' : PublishHolds publications maxNames (Function.update s.slots i { s.slots i with
            name := Function.update (s.slots i).name (publications p).name.length 0 }) p (.store i) := by
          simp only [PublishHolds, Function.update_self]
          refine ⟨hc, hword, fun n hlen => ?_, Function.update_self ..⟩
          show Function.update (s.slots i).name (publications p).name.length 0 n = _
          rw [Function.update_of_ne (by omega)]
          exact hbytes n (by omega) hlen
        obtain ⟨hinv, hk⟩ := h.writeName hc hword hpc'
        exact ⟨hinv, kept_setSlot hk⟩
  | store i =>
      rw [hpc] at hs hp
      cases hs
      obtain ⟨hc, hword, hwhole⟩ := hp
      obtain ⟨hinv, hk⟩ := h.storeKey hc hword hwhole
      exact ⟨hinv, kept_setSlot hk⟩
  | bump i =>
      rw [hpc] at hs hp
      cases hs
      obtain ⟨hc, hword⟩ := hp
      have hinv : NameInv publications maxNames wanted (s.setPublisher p (.done true)) :=
        h.setPublisher ⟨i, p, hword, hc, rfl⟩
      exact ⟨⟨hinv.slots, hinv.range, hinv.dense, hinv.unique, hinv.publishers, hinv.lookups⟩,
        fun j => Kept.refl _⟩
  | compare i read =>
      rw [hpc] at hs hp
      simp only at hs
      obtain ⟨hword, c, hc, hread⟩ := hp
      have hb := ((h.slots i).whole hw hword hc).2.read (publications c).nulFree hread
      split at hs
      · rename_i hz
        cases hs
        rw [if_pos hz] at hb
        refine ⟨h.setPublisher ?_, kept_setPublisher _⟩
        cases hd : decide (read = (publications p).name) with
        | false => trivial
        | true => exact ⟨i, c, hword, hc, hb.symm.trans (of_decide_eq_true hd)⟩
      · rename_i hz
        cases hs
        rw [if_neg hz] at hb
        exact ⟨h.setPublisher ⟨hword, c, hc, hb⟩, kept_setPublisher _⟩
  | done result => rw [hpc] at hs; cases hs

theorem publishStep_lookups (hs : s.publishStep maxNames (publications p) p = some s') :
    s'.lookups = s.lookups := by
  unfold NameState.publishStep at hs
  cases hpc : s.publishers p <;> rw [hpc] at hs <;> simp only at hs
  all_goals try split at hs
  all_goals cases hs
  all_goals rfl

omit [DecidableEq Caller] in
theorem lookupStep_frame [DecidableEq Reader] {want : UInt64} {q : Reader}
    (hs : s.lookupStep maxNames want q = some s') :
    s'.slots = s.slots ∧ s'.publishers = s.publishers ∧ ∀ q', q' ≠ q → s'.lookups q' = s.lookups q' := by
  have hgoto : ∀ {pc : LookupPc}, some { s with lookups := Function.update s.lookups q pc } = some s' →
      s'.slots = s.slots ∧ s'.publishers = s.publishers ∧ ∀ q', q' ≠ q → s'.lookups q' = s.lookups q' := by
    rintro pc h
    cases h
    exact ⟨rfl, rfl, fun q' hq => Function.update_of_ne hq _ _⟩
  unfold NameState.lookupStep at hs
  cases hpc : s.lookups q with
  | idle => rw [hpc] at hs; exact hgoto hs
  | load i =>
      rw [hpc] at hs
      simp only at hs
      split at hs
      · split at hs
        · exact hgoto hs
        · split at hs
          · exact hgoto hs
          · exact hgoto hs
      · exact hgoto hs
  | read i read =>
      rw [hpc] at hs
      simp only at hs
      split at hs
      · exact hgoto hs
      · exact hgoto hs
  | done r => rw [hpc] at hs; cases hs

omit [DecidableEq Caller] in
/-- What a lookup has read is the name of its key. -/
theorem NameInv.lookupStep [DecidableEq Reader] (h : NameInv publications maxNames wanted s) {q : Reader}
    (hs : s.lookupStep maxNames (nameKey (wanted q).1 (wanted q).2 + 1) q = some s') :
    NameInv publications maxNames wanted s' := by
  have hw := isWant_nameKey (wanted q).1 (wanted q).2
  have hq := h.lookups q
  have hgoto : ∀ pc, LookupHolds publications s.slots (nameKey (wanted q).1 (wanted q).2 + 1) pc →
      NameInv publications maxNames wanted { s with lookups := Function.update s.lookups q pc } := by
    intro pc hpc
    refine ⟨h.slots, h.range, h.dense, h.unique, h.publishers, fun q' => ?_⟩
    simp only [Function.update_apply]
    split
    · rename_i he; subst he; exact hpc
    · exact h.lookups q'
  unfold NameState.lookupStep at hs
  cases hpc : s.lookups q with
  | idle => rw [hpc] at hs; cases hs; exact hgoto _ trivial
  | load i =>
      rw [hpc] at hs
      simp only at hs
      split at hs
      · split at hs
        · cases hs; exact hgoto _ trivial
        · rename_i hfree
          split at hs
          · rename_i hword
            cases hs
            have hkey : keyOf (s.slots i).keyPlusOne = nameKey (wanted q).1 (wanted q).2 + 1 := by
              rw [hword, hw.keyOf]
            obtain ⟨-, c, hc⟩ := (h.slots i).word hw hkey (by rw [hword]; exact hw.free)
            exact hgoto _ ⟨hword, c, hc, List.nil_prefix⟩
          · cases hs; exact hgoto _ trivial
      · cases hs; exact hgoto _ (Or.inl rfl)
  | read i read =>
      rw [hpc] at hs hq
      simp only at hs
      obtain ⟨hword, c, hc, hread⟩ := hq
      have hb := ((h.slots i).whole hw hword hc).2.read (publications c).nulFree hread
      split at hs
      · rename_i hz
        cases hs
        rw [if_pos hz] at hb
        exact hgoto _ (Or.inr ⟨i, c, hword, hc, hb⟩)
      · rename_i hz
        cases hs
        rw [if_neg hz] at hb
        exact hgoto _ ⟨hword, c, hc, hb⟩
  | done r => rw [hpc] at hs; cases hs

end Steps

/-! ## Runs -/

section Runs

variable [DecidableEq Caller] [DecidableEq Reader] {publications : Caller → Publication nameCapacity}
  {maxNames : Nat} {wanted : Reader → UInt32 × UInt8} {s s' : NameState Caller Reader}

theorem NameInv.step (h : NameInv publications maxNames wanted s) {a : NameAction Caller Reader}
    (hs : (nameSystem maxNames publications wanted).step a s = some s') :
    NameInv publications maxNames wanted s' ∧ ∀ j, Kept (s.slots j) (s'.slots j) := by
  cases a with
  | publish p => exact h.publishStep hs
  | lookup q =>
      exact ⟨h.lookupStep hs, fun j => by rw [(lookupStep_frame hs).1]; exact Kept.refl _⟩

theorem nameInv_reachable (hs : (nameSystem maxNames publications wanted).Reachable s) :
    NameInv publications maxNames wanted s := by
  refine hs.invariant (I := NameInv publications maxNames wanted) ?_ fun _ _ _ h h' => (h.step h').1
  rintro s ⟨hfree, hidle, hnone⟩
  exact
    { slots := fun i => .free (hfree i).1 (hfree i).2
      range := fun i hu => absurd (hfree i).1 hu
      dense := fun _ j _ hu => absurd (hfree j).1 hu
      unique := fun i _ hu => absurd (hfree i).1 hu
      publishers := fun p => by rw [hidle]; trivial
      lookups := fun q => by rw [hnone]; trivial }

/-- Along a run, a used slot keeps its key, and a published one is never touched again. -/
theorem kept_runs (hs : (nameSystem maxNames publications wanted).Reachable s)
    (hr : (nameSystem maxNames publications wanted).Runs s s') :
    (nameSystem maxNames publications wanted).Reachable s' ∧ ∀ j, Kept (s.slots j) (s'.slots j) :=
  System.Runs.preserves (R := fun s s' : NameState Caller Reader => ∀ j, Kept (s.slots j) (s'.slots j))
    (fun _ _ => Kept.refl _) (fun _ _ _ h h' j => (h j).trans (h' j)) (fun _ _ _ h h' => ((nameInv_reachable h).step h').2) hs hr

/-- A lookup of a key whose name is in slot `i` has not passed the slot. -/
def HeadsFor (i : Nat) (name : List UInt8) : LookupPc → Prop
  | .idle => True
  | .load j => j ≤ i
  | .read j _ => j = i
  | .done r => r = name

omit [DecidableEq Caller] in
theorem NameInv.headsFor (hinv : NameInv publications maxNames wanted s) {i : Nat} {c : Caller} {q : Reader}
    (hword : (s.slots i).keyPlusOne = nameKey (wanted q).1 (wanted q).2 + 1) (hc : (s.slots i).claimant = some c)
    (hheads : HeadsFor i (publications c).name (s.lookups q))
    (hl : s.lookupStep maxNames (nameKey (wanted q).1 (wanted q).2 + 1) q = some s') :
    HeadsFor i (publications c).name (s'.lookups q) := by
  have hw := isWant_nameKey (wanted q).1 (wanted q).2
  have hlooks := hinv.lookups q
  unfold NameState.lookupStep at hl
  cases hpc : s.lookups q with
  | idle => rw [hpc] at hl; cases hl; simp [HeadsFor]
  | load j =>
      rw [hpc] at hl hheads
      simp only [HeadsFor] at hl hheads
      -- slot i is found before the scan passes it
      have hstay : j = i → j < maxNames ∧ ¬((s.slots j).keyPlusOne = 0 ∨
          isClaimed (s.slots j).keyPlusOne = true) ∧
          (s.slots j).keyPlusOne = nameKey (wanted q).1 (wanted q).2 + 1 := by
        rintro rfl
        refine ⟨hinv.range j (by rw [hword]; exact hw.pos), ?_, hword⟩
        rw [hword, hw.free]
        simpa using hw.pos
      by_cases hji : j = i
      · obtain ⟨h1, h2, h3⟩ := hstay hji
        rw [if_pos h1, if_neg h2, if_pos h3] at hl
        cases hl
        simpa [HeadsFor] using hji
      · split at hl
        · split at hl
          · cases hl; simp only [Function.update_self, HeadsFor]; omega
          · split at hl
            · -- another slot with the same key would be slot i
              rename_i hw'
              refine absurd (hinv.unique j i (by rw [hw']; exact hw.pos) ?_) hji
              rw [hw', hword]
            · cases hl; simp only [Function.update_self, HeadsFor]; omega
        · have := hinv.range i (by rw [hword]; exact hw.pos)
          omega
  | read j read =>
      rw [hpc] at hl hheads hlooks
      simp only [HeadsFor] at hl hheads
      subst hheads
      obtain ⟨-, c', hc', hread⟩ := hlooks
      rw [hc] at hc'
      cases hc'
      have hb := ((hinv.slots j).whole hw hword hc).2.read (publications c).nulFree hread
      split at hl
      · rename_i hz
        cases hl
        rw [if_pos hz] at hb
        simpa [HeadsFor] using hb
      · cases hl
        simp [HeadsFor]
  | done r => rw [hpc] at hl; cases hl

/-- A lookup that starts once a name is published in slot `i` ends with that name. -/
theorem lookup_finds (hs : (nameSystem maxNames publications wanted).Reachable s) {i : Nat} {c : Caller}
    {q : Reader} (hword : (s.slots i).keyPlusOne = nameKey (wanted q).1 (wanted q).2 + 1)
    (hc : (s.slots i).claimant = some c) (hidle : s.lookups q = .idle)
    (hr : (nameSystem maxNames publications wanted).Runs s s') :
    HeadsFor i (publications c).name (s'.lookups q) := by
  have hw := isWant_nameKey (wanted q).1 (wanted q).2
  induction hr with
  | refl => rw [hidle]; trivial
  | @step s₁ s₂ a hr₁ hstep ih =>
      obtain ⟨hreach, hkept⟩ := kept_runs hs hr₁
      have hinv := nameInv_reachable hreach
      have hslot : s₁.slots i = s.slots i := (hkept i).word hw hword
      rw [← hslot] at hword hc
      cases a with
      | publish p =>
          rw [publishStep_lookups hstep]
          exact ih
      | lookup q' =>
          by_cases hq : q' = q
          · subst hq
            exact hinv.headsFor hword hc ih hstep
          · rw [(lookupStep_frame hstep).2.2 q fun he => hq he.symm]
            exact ih

omit [DecidableEq Caller] in
theorem SlotHolds.of_claimant {slot : NameSlot Caller} (h : SlotHolds publications slot) {c : Caller}
    (hc : slot.claimant = some c) : slot.keyPlusOne ≠ 0 ∧ keyOf slot.keyPlusOne = (publications c).want := by
  have hw := (publications c).isWant
  cases h with
  | free _ hnone => rw [hnone] at hc; cases hc
  | claimed c' hc' hword =>
      rw [hc] at hc'
      cases hc'
      rw [hword]
      exact ⟨hw.claim_pos, hw.keyOf_claim⟩
  | published c' hc' hword _ =>
      rw [hc] at hc'
      cases hc'
      rw [hword]
      exact ⟨hw.pos, hw.keyOf⟩

/-- In every interleaving, wherever calls stop: no key is held by two slots; the used slots are a dense prefix and
keep their keys; a lookup returns nothing or the whole name of the one claimant of its key, and every later lookup
of that key returns the same; and once a call has returned true, every later lookup returns its name, so two calls
that both returned true for one key had one name. -/
theorem one_key_one_slot_one_name (hs : (nameSystem maxNames publications wanted).Reachable s) :
    (∀ i j, (s.slots i).keyPlusOne ≠ 0 → keyOf (s.slots i).keyPlusOne = keyOf (s.slots j).keyPlusOne →
      i = j) ∧
    (∀ i j, i < j → (s.slots j).keyPlusOne ≠ 0 → (s.slots i).keyPlusOne ≠ 0) ∧
    (∀ s', (nameSystem maxNames publications wanted).Runs s s' → ∀ i, (s.slots i).keyPlusOne ≠ 0 →
      keyOf (s'.slots i).keyPlusOne = keyOf (s.slots i).keyPlusOne) ∧
    (∀ q r, s.lookups q = .done r → r = [] ∨ ∃ i c, (s.slots i).claimant = some c ∧
      wanted q = ((publications c).point, (publications c).step) ∧ r = (publications c).name ∧
      ∀ j c', (s.slots j).claimant = some c' →
        wanted q = ((publications c').point, (publications c').step) → j = i ∧ c' = c) ∧
    (∀ q r, s.lookups q = .done r → r ≠ [] →
      ∀ s', (nameSystem maxNames publications wanted).Runs s s' → ∀ q' r', s.lookups q' = .idle →
        wanted q' = wanted q → s'.lookups q' = .done r' → r' = r) ∧
    (∀ p, s.publishers p = .done true →
      (∀ s', (nameSystem maxNames publications wanted).Runs s s' → ∀ q' r', s.lookups q' = .idle →
        wanted q' = ((publications p).point, (publications p).step) → s'.lookups q' = .done r' →
          r' = (publications p).name) ∧
      ∀ p', s.publishers p' = .done true → (publications p').point = (publications p).point →
        (publications p').step = (publications p).step → (publications p').name = (publications p).name) := by
  have h := nameInv_reachable hs
  have hsame : ∀ {q : Reader} {c : Caller}, nameKey (wanted q).1 (wanted q).2 + 1 = (publications c).want →
      wanted q = ((publications c).point, (publications c).step) := fun he =>
    Prod.ext (nameKey_succ_inj he).1 (nameKey_succ_inj he).2
  refine ⟨h.unique, h.dense, fun s' hr i hu => ((kept_runs hs hr).2 i).key hu, fun q r hq => ?_,
    fun q r hq hne s' hr q' r' hidle hwant hdone => ?_, fun p hp => ⟨fun s' hr q' r' hidle hwant hdone => ?_,
      fun p' hp' hpoint hstep => ?_⟩⟩
  · have hl := h.lookups q
    rw [hq] at hl
    rcases hl with hl | ⟨i, c, hword, hc, hname⟩
    · exact Or.inl hl
    · have hw := isWant_nameKey (wanted q).1 (wanted q).2
      obtain ⟨hkey, -⟩ := (h.slots i).whole hw hword hc
      refine Or.inr ⟨i, c, hc, hsame hkey.symm, hname, fun j c' hc' hwant => ?_⟩
      obtain ⟨hu, hkey'⟩ := (h.slots j).of_claimant hc'
      have hji : j = i := by
        refine h.unique j i hu ?_
        rw [hkey', hword, hw.keyOf, Publication.want, hwant]
      subst hji
      rw [hc] at hc'
      exact ⟨rfl, (Option.some.inj hc').symm⟩
  · have hl := h.lookups q
    rw [hq] at hl
    rcases hl with hl | ⟨i, c, hword, hc, hname⟩
    · exact absurd hl hne
    · have hfound := lookup_finds hs (q := q') (by rw [hwant]; exact hword) hc hidle hr
      rw [hdone] at hfound
      rw [hfound, hname]
  · have hd := h.publishers p
    rw [hp] at hd
    obtain ⟨i, c, hword, hc, hname⟩ := hd
    have hfound := lookup_finds hs (q := q') (by rw [hwant]; exact hword) hc hidle hr
    rw [hdone] at hfound
    rw [hfound, hname]
  · have hd := h.publishers p
    have hd' := h.publishers p'
    rw [hp] at hd
    rw [hp'] at hd'
    obtain ⟨i, c, hword, hc, hname⟩ := hd
    obtain ⟨i', c', hword', hc', hname'⟩ := hd'
    have hwant : (publications p').want = (publications p).want := by
      rw [Publication.want, Publication.want, hpoint, hstep]
    have hii : i' = i := by
      refine h.unique i' i (by rw [hword']; exact (publications p').isWant.pos) ?_
      rw [hword', hword, hwant]
    subst hii
    rw [hc] at hc'
    cases hc'
    rw [← hname, ← hname']

end Runs

/-- Two calls that disagree about one key, and one for another. -/
def threeNames (caller : Nat) : Publication 64 :=
  if caller = 0 then ⟨7, 3, [97, 98], by decide, by decide⟩
  else if caller = 1 then ⟨7, 3, [97], by decide, by decide⟩
  else ⟨8, 1, [99], by decide, by decide⟩

/-- All three are at the exchange of the first slot when one takes it: of the others one waits for its key, one goes on
to the next slot. A lookup comes before the name is there, one after it, one later. -/
def lostRace : List (NameAction Nat Nat) :=
  [0, 0, 1, 1, 2, 2, 0, 1, 1, 2, 2, 2].map NameAction.publish ++ List.replicate 6 (.lookup 0) ++
    [0, 1, 2, 0, 0, 0, 1, 1, 1, 1].map NameAction.publish ++ [.lookup 1] ++
    [0, 2, 2, 2].map NameAction.publish ++ List.replicate 4 (.lookup 1)

theorem one_key_one_slot_one_name_lostRace :
    let M := nameSystem 4 threeNames fun _ : Nat => ((7 : UInt32), (3 : UInt8))
    ∃ s : NameState Nat Nat, s.publishers 0 = .done true ∧ s.publishers 1 = .done false ∧
      s.publishers 2 = .done true ∧ s.lookups 0 = .done [] ∧ s.lookups 1 = .done [97, 98] ∧
      (∀ i j, (s.slots i).keyPlusOne ≠ 0 → keyOf (s.slots i).keyPlusOne = keyOf (s.slots j).keyPlusOne → i = j) ∧
      ∀ s', M.Runs s s' → ∀ r, s'.lookups 2 = .done r → r = [97, 98] := by
  intro M
  let s₀ : NameState Nat Nat := ⟨fun _ => ⟨0, fun _ => 0, none⟩, 0, fun _ => .idle, fun _ => .idle⟩
  have hinit : M.Init s₀ := ⟨fun _ => ⟨rfl, rfl⟩, fun _ => rfl, fun _ => rfl⟩
  have hrun : (M.run lostRace s₀).map (fun s =>
      ((s.publishers 0, s.publishers 1, s.publishers 2), s.lookups 0, s.lookups 1, s.lookups 2)) =
      some ((.done true, .done false, .done true), .done [], .done [97, 98], .idle) := by
    decide +kernel
  obtain ⟨s, hs, hend⟩ := Option.map_eq_some_iff.mp hrun
  simp only [Prod.mk.injEq] at hend
  obtain ⟨⟨h0, h1, h2⟩, hbefore, hafter, hidle⟩ := hend
  obtain ⟨hunique, -, -, -, hsame, -⟩ := one_key_one_slot_one_name ((System.Reachable.init hinit).run hs)
  refine ⟨s, h0, h1, h2, hbefore, hafter, hunique, fun s' hr r hr' => ?_⟩
  exact hsame 1 [97, 98] hafter (by simp) s' hr 2 r hidle rfl hr'

end SlickPerfmon
