import SlickPerfmon.Ring.ThreadRing

/-!
# A lapping writer never tears a batch

A slot whose index is within the mask of the head has not been reached by the writer since its sample was
published, and was not at any earlier time. So whatever the reader copied, fields of several generations
included, the samples that survive the second head load are whole.
-/

namespace SlickPerfmon

open Library

/-! ## Slots -/

/-- Indices less than a lap apart have different slots. -/
theorem slot_ne {mask k i n : Nat} (hk : mask + 1 = 2 ^ k) (hlt : i < n) (hle : n ≤ i + mask) :
    i &&& mask ≠ n &&& mask := by
  have hmask : mask = 2 ^ k - 1 := by omega
  rw [hmask, Nat.and_two_pow_sub_one_eq_mod, Nat.and_two_pow_sub_one_eq_mod, ← hk]
  intro he
  obtain ⟨d, rfl⟩ := Nat.exists_eq_add_of_lt hlt
  have hdvd : mask + 1 ∣ d + 1 := by
    have hsub := Nat.sub_mod_eq_zero_of_mod_eq he.symm
    rw [show i + d + 1 - i = d + 1 by omega] at hsub
    exact Nat.dvd_of_mod_eq_zero hsub
  have := Nat.le_of_dvd (by omega) hdvd
  omega

theorem firstIntact_le {h mask i : Nat} : firstIntact h mask ≤ i ↔ h ≤ i + mask := by
  unfold firstIntact
  split <;> omega

/-! ## The invariant -/

/-- How much of the sample being published is in its slot. -/
def WriterHolds (mask : Nat) (s : RingState) : Prop :=
  let slot := s.slots (s.next &&& mask)
  match s.writer with
  | .idle => True
  | .timestamp _ => True
  | .point x => slot.timestamp = x.timestamp
  | .event x => slot.timestamp = x.timestamp ∧ slot.point = x.point
  | .head x => slot = x

/-- The loaded fields are those of the published sample, if its slot is intact still. -/
def LoadedHolds (mask : Nat) (s : RingState) (c : Copy) : Prop :=
  match c.loaded with
  | .none => True
  | .timestamp ts => c.i < c.stop ∧
      (s.head ≤ c.i + mask → ∃ x, s.published[c.i]? = some x ∧ x.timestamp = ts)
  | .point ts p => c.i < c.stop ∧
      (s.head ≤ c.i + mask → ∃ x, s.published[c.i]? = some x ∧ x.timestamp = ts ∧ x.point = p)

/-- A copy in progress: of every sample copied so far, either the slot has been reached since or the copy is the
published sample. -/
structure CopyHolds (mask : Nat) (s : RingState) (c : Copy) : Prop where
  nonempty : ¬ (c.h ≤ s.cursor ∨ c.maxN = 0)
  start : c.start = readStart c.h mask s.cursor
  stop : c.stop = readStop c.h c.start c.maxN
  head : c.h ≤ s.head
  range : c.start ≤ c.i ∧ c.i ≤ c.stop
  length : c.scratch.length = c.i - c.start
  copied : ∀ j x, c.scratch[j]? = some x → s.head ≤ c.start + j + mask →
    s.published[c.start + j]? = some x
  loaded : LoadedHolds mask s c
  call : s.callCursor = s.cursor ∧ s.callLost = s.lost

/-- A batch handed out: published samples, and a cursor that moved by what was lost. -/
structure ReturnedHolds (s : RingState) (batch : List Sample) : Prop where
  published : ∀ j x, batch[j]? = some x → s.published[s.cursor + j]? = some x
  bound : s.cursor + batch.length ≤ s.head
  call : s.callCursor ≤ s.cursor ∧ s.callLost ≤ s.lost ∧ s.cursor - s.callCursor = s.lost - s.callLost

def ReaderHolds (mask : Nat) (s : RingState) : Prop :=
  match s.reader with
  | .idle => True
  | .copying c => CopyHolds mask s c
  | .returned batch => ReturnedHolds s batch

structure RingInv (mask : Nat) (s : RingState) : Prop where
  next : s.next = s.head
  head : s.head = s.published.length
  slots : ∀ i x, s.published[i]? = some x → s.head ≤ i + mask → s.slots (i &&& mask) = x
  writer : WriterHolds mask s
  reader : ReaderHolds mask s
  bound : s.cursor ≤ s.head
  ledger : s.cursor = s.initial + s.consumed + s.lost

theorem ringInv_init {mask : Nat} {s : RingState} (h : RingInit mask s) : RingInv mask s where
  next := h.next
  head := h.head
  slots := h.slots
  writer := by simp only [WriterHolds, h.writer]
  reader := by simp only [ReaderHolds, h.reader]
  bound := h.cursor
  ledger := by rw [h.initial, h.lost, h.consumed]; omega

/-! ## Writer steps -/

section Writer

variable {mask k : Nat} {s s' : RingState}

theorem RingInv.lt_head (h : RingInv mask s) {i : Nat} {x : Sample} (hi : s.published[i]? = some x) :
    i < s.head := by
  rw [h.head]
  exact (List.getElem?_eq_some_iff.mp hi).1

/-- A store into the slot being written leaves the intact slots alone. -/
theorem RingInv.slots_store (hk : mask + 1 = 2 ^ k) (h : RingInv mask s) (y : Sample) :
    ∀ i x, s.published[i]? = some x → s.head ≤ i + mask →
      Function.update s.slots (s.next &&& mask) y (i &&& mask) = x := by
  intro i x hi hle
  have hne : i &&& mask ≠ s.next &&& mask := by
    rw [h.next]
    exact slot_ne hk (h.lt_head hi) hle
  rw [Function.update_of_ne hne]
  exact h.slots i x hi hle

/-- The reader's part of the invariant looks at neither the slots nor the writer. -/
theorem ReaderHolds.frame (h : ReaderHolds mask s) (hr : s'.reader = s.reader) (hh : s'.head = s.head)
    (hp : s'.published = s.published) (hc : s'.cursor = s.cursor) (hl : s'.lost = s.lost)
    (hcc : s'.callCursor = s.callCursor) (hcl : s'.callLost = s.callLost) : ReaderHolds mask s' := by
  unfold ReaderHolds at h ⊢
  rw [hr]
  cases hreader : s.reader with
  | idle => trivial
  | copying c =>
      rw [hreader] at h
      have hloaded := h.loaded
      simp only [LoadedHolds] at hloaded
      exact
        { nonempty := by rw [hc]; exact h.nonempty
          start := by rw [hc]; exact h.start
          stop := h.stop
          head := by rw [hh]; exact h.head
          range := h.range
          length := h.length
          copied := by rw [hh, hp]; exact h.copied
          loaded := by simp only [LoadedHolds, hh, hp]; exact hloaded
          call := by rw [hc, hl, hcc, hcl]; exact h.call }
  | returned batch =>
      rw [hreader] at h
      exact
        { published := by rw [hp, hc]; exact h.published
          bound := by rw [hc, hh]; exact h.bound
          call := by rw [hc, hl, hcc, hcl]; exact h.call }

/-- A longer log and a higher head keep what the reader knows. -/
theorem ReaderHolds.publish (h : ReaderHolds mask s) (hlen : s.head = s.published.length) (x : Sample)
    (hr : s'.reader = s.reader) (hh : s'.head = s.head + 1) (hp : s'.published = s.published ++ [x])
    (hc : s'.cursor = s.cursor) (hl : s'.lost = s.lost) (hcc : s'.callCursor = s.callCursor)
    (hcl : s'.callLost = s.callLost) : ReaderHolds mask s' := by
  have hkeep : ∀ {i : Nat} {y : Sample}, s.published[i]? = some y → s'.published[i]? = some y := by
    intro i y hi
    rw [hp, List.getElem?_append_left (List.getElem?_eq_some_iff.mp hi).1]
    exact hi
  unfold ReaderHolds at h ⊢
  rw [hr]
  cases hreader : s.reader with
  | idle => trivial
  | copying c =>
      rw [hreader] at h
      have hloaded := h.loaded
      refine
        { nonempty := by rw [hc]; exact h.nonempty
          start := by rw [hc]; exact h.start
          stop := h.stop
          head := by have := h.head; omega
          range := h.range
          length := h.length
          copied := fun j y hj hle => hkeep (h.copied j y hj (by omega))
          loaded := ?_
          call := by rw [hc, hl, hcc, hcl]; exact h.call }
      unfold LoadedHolds at hloaded ⊢
      cases hpart : c.loaded with
      | none => trivial
      | timestamp ts =>
          rw [hpart] at hloaded
          refine ⟨hloaded.1, fun hle => ?_⟩
          obtain ⟨y, hy, hts⟩ := hloaded.2 (by omega)
          exact ⟨y, hkeep hy, hts⟩
      | point ts p =>
          rw [hpart] at hloaded
          refine ⟨hloaded.1, fun hle => ?_⟩
          obtain ⟨y, hy, hts⟩ := hloaded.2 (by omega)
          exact ⟨y, hkeep hy, hts⟩
  | returned batch =>
      rw [hreader] at h
      exact
        { published := fun j y hj => by rw [hc]; exact hkeep (h.published j y hj)
          bound := by have := h.bound; rw [hc]; omega
          call := by rw [hc, hl, hcc, hcl]; exact h.call }

theorem RingInv.storeNext (hk : mask + 1 = 2 ^ k) (h : RingInv mask s) (hs : s.storeNext mask = some s') :
    RingInv mask s' := by
  have hw := h.writer
  unfold RingState.storeNext at hs
  unfold WriterHolds at hw
  cases hpc : s.writer with
  | idle => rw [hpc] at hs; cases hs
  | timestamp x =>
      rw [hpc] at hs
      cases hs
      exact
        { next := h.next
          head := h.head
          slots := h.slots_store hk _
          writer := by simp only [WriterHolds, Function.update_self]
          reader := h.reader.frame rfl rfl rfl rfl rfl rfl rfl
          bound := h.bound
          ledger := h.ledger }
  | point x =>
      rw [hpc] at hs hw
      cases hs
      exact
        { next := h.next
          head := h.head
          slots := h.slots_store hk _
          writer := by simp only [WriterHolds, Function.update_self, and_true]; exact hw
          reader := h.reader.frame rfl rfl rfl rfl rfl rfl rfl
          bound := h.bound
          ledger := h.ledger }
  | event x =>
      rw [hpc] at hs hw
      cases hs
      exact
        { next := h.next
          head := h.head
          slots := h.slots_store hk _
          writer := by
            obtain ⟨hts, hp⟩ := hw
            simp only [WriterHolds, Function.update_self, hts, hp]
          reader := h.reader.frame rfl rfl rfl rfl rfl rfl rfl
          bound := h.bound
          ledger := h.ledger }
  | head x =>
      rw [hpc] at hs hw
      cases hs
      have hnext := h.next
      have hlen := h.head
      exact
        { next := rfl
          head := by simp only [List.length_append, List.length_singleton]; omega
          slots := by
            intro i y hi hle
            simp only at hi hle ⊢
            by_cases hlt : i < s.published.length
            · rw [List.getElem?_append_left hlt] at hi
              exact h.slots i y hi (by omega)
            · -- the sample just published: its slot is complete
              have hin := (List.getElem?_eq_some_iff.mp hi).1
              simp only [List.length_append, List.length_singleton] at hin
              have hi' : i = s.published.length := by omega
              subst hi'
              simp only [List.getElem?_concat_length, Option.some.injEq] at hi
              rw [← hlen, ← hnext, hw, hi]
          writer := by simp only [WriterHolds]
          reader := h.reader.publish h.head x rfl (by simp only; omega) rfl rfl rfl rfl rfl
          bound := by have := h.bound; simp only; omega
          ledger := h.ledger }

end Writer

/-! ## Reader steps -/

section Reader

variable {mask : Nat} {s s' : RingState}

/-- The bounds of a copy: it starts at or after the cursor, and stops at or before the head it loaded. -/
theorem CopyHolds.bounds {c : Copy} (h : CopyHolds mask s c) :
    s.cursor ≤ c.start ∧ c.stop ≤ c.h ∧ c.start ≤ c.stop := by
  have hne := h.nonempty
  have hstart := h.start
  have hstop := h.stop
  have hrange := h.range
  unfold readStart at hstart
  unfold readStop at hstop
  have hfi : firstIntact c.h mask ≤ c.h := firstIntact_le.mpr (by omega)
  refine ⟨?_, ?_, by omega⟩
  · split at hstart <;> omega
  · split at hstart <;> split at hstop <;> omega

theorem RingInv.readHead (h : RingInv mask s) {maxN : Nat} (hs : s.readHead mask maxN = some s') :
    RingInv mask s' := by
  unfold RingState.readHead at hs
  cases hpc : s.reader with
  | copying c => rw [hpc] at hs; cases hs
  | returned batch => rw [hpc] at hs; cases hs
  | idle =>
      rw [hpc] at hs
      simp only at hs
      by_cases hempty : s.head ≤ s.cursor ∨ maxN = 0
      · rw [if_pos hempty] at hs
        cases hs
        exact
          { next := h.next
            head := h.head
            slots := h.slots
            writer := h.writer
            reader :=
              { published := fun j x hj => by simp at hj
                bound := by simpa using h.bound
                call := ⟨Nat.le_refl _, Nat.le_refl _, by simp⟩ }
            bound := h.bound
            ledger := h.ledger }
      · rw [if_neg hempty] at hs
        cases hs
        have hfi : firstIntact s.head mask ≤ s.head := firstIntact_le.mpr (by omega)
        exact
          { next := h.next
            head := h.head
            slots := h.slots
            writer := h.writer
            reader :=
              { nonempty := hempty
                start := rfl
                stop := rfl
                head := Nat.le_refl _
                range := by
                  refine ⟨Nat.le_refl _, ?_⟩
                  simp only [readStop, readStart]
                  split <;> split <;> omega
                length := by simp
                copied := fun j x hj => by simp at hj
                loaded := trivial
                call := ⟨rfl, rfl⟩ }
            bound := h.bound
            ledger := h.ledger }

/-- A field loaded from a slot that is intact now was the published one. -/
theorem RingInv.load (h : RingInv mask s) {i : Nat} (hi : i < s.head) (hle : s.head ≤ i + mask) :
    s.published[i]? = some (s.slots (i &&& mask)) := by
  have hlen : i < s.published.length := by rw [← h.head]; exact hi
  have hget := List.getElem?_eq_getElem hlen
  rw [hget, h.slots i _ hget hle]

theorem RingInv.loadNext (h : RingInv mask s) (hs : s.loadNext mask = some s') : RingInv mask s' := by
  unfold RingState.loadNext at hs
  cases hpc : s.reader with
  | idle => rw [hpc] at hs; cases hs
  | returned batch => rw [hpc] at hs; cases hs
  | copying c =>
      rw [hpc] at hs
      have hc : CopyHolds mask s c := by have := h.reader; rwa [ReaderHolds, hpc] at this
      obtain ⟨hcur, hstop, hss⟩ := hc.bounds
      have hhead := hc.head
      have hpart := hc.loaded
      by_cases hlt : c.i < c.stop
      · simp only [hlt, if_true] at hs
        unfold LoadedHolds at hpart
        -- the reader's own state is all that changes
        have hkeep : ∀ c' : Copy, CopyHolds mask { s with reader := .copying c' } c' →
            RingInv mask { s with reader := .copying c' } := fun c' hc' =>
          ⟨h.next, h.head, h.slots, h.writer, hc', h.bound, h.ledger⟩
        cases hl : c.loaded with
        | none =>
            rw [hl] at hs
            cases hs
            exact hkeep _ ⟨hc.nonempty, hc.start, hc.stop, hc.head, hc.range, hc.length, hc.copied,
              ⟨hlt, fun hle => ⟨_, h.load (i := c.i) (by omega) hle, rfl⟩⟩, hc.call⟩
        | timestamp ts =>
            rw [hl] at hs hpart
            cases hs
            refine hkeep _ ⟨hc.nonempty, hc.start, hc.stop, hc.head, hc.range, hc.length, hc.copied,
              ⟨hlt, fun hle => ?_⟩, hc.call⟩
            obtain ⟨x, hx, hts⟩ := hpart.2 hle
            have hslot := h.load (i := c.i) (by omega) hle
            rw [hx] at hslot
            cases hslot
            exact ⟨_, hx, hts, rfl⟩
        | point ts p =>
            rw [hl] at hs hpart
            cases hs
            have hrange := hc.range
            have hlen := hc.length
            refine hkeep _ ⟨hc.nonempty, hc.start, hc.stop, hc.head, by simp only; omega, ?_, ?_, trivial,
              hc.call⟩
            · simp only [List.length_append, List.length_singleton]; omega
            · intro j x hj hle
              simp only at hj hle ⊢
              by_cases hjl : j < c.scratch.length
              · rw [List.getElem?_append_left hjl] at hj
                exact hc.copied j x hj hle
              · have hjin := (List.getElem?_eq_some_iff.mp hj).1
                simp only [List.length_append, List.length_singleton] at hjin
                have hj' : j = c.scratch.length := by omega
                subst hj'
                simp only [List.getElem?_concat_length, Option.some.injEq] at hj
                have hi : c.start + c.scratch.length = c.i := by omega
                rw [hi] at hle ⊢
                obtain ⟨y, hy, hts, hp⟩ := hpart.2 hle
                have hslot := h.load (i := c.i) (by omega) hle
                rw [hy] at hslot
                cases hslot
                rw [hy, ← hj, ← hts, ← hp]
      · -- the copy is done: the second head load decides which samples survive
        simp only [hlt, if_false] at hs
        cases hs
        have hrange := hc.range
        have hlen := hc.length
        have hcall := hc.call
        set first := readFirst (firstIntact s.head mask) c.start c.stop with hfirst
        have hbetween : c.start ≤ first ∧ first ≤ c.stop ∧
            (first < c.stop → s.head ≤ first + mask) := by
          unfold readFirst at hfirst
          have hv : firstIntact s.head mask ≤ first ↔ s.head ≤ first + mask := firstIntact_le
          split at hfirst
          · split at hfirst <;> omega
          · refine ⟨by omega, by omega, fun _ => ?_⟩
            rw [← hv]
            omega
        have hled := h.ledger
        refine ⟨h.next, h.head, h.slots, h.writer, ⟨fun j x hj => ?_, ?_, ?_⟩, ?_, ?_⟩
        · simp only at hj ⊢
          rw [List.getElem?_drop] at hj
          have hjin := (List.getElem?_eq_some_iff.mp hj).1
          have := hc.copied _ x hj (by omega)
          rwa [show c.start + (first - c.start + j) = first + j by omega] at this
        · simp only [List.length_drop]; omega
        · simp only; omega
        · simp only; omega
        · simp only; omega

end Reader

/-! ## Runs -/

/-- Every step of either side keeps the invariant. -/
theorem RingInv.step {mask k : Nat} (hk : mask + 1 = 2 ^ k) {a : RingAction} {s s' : RingState}
    (h : RingInv mask s) (hs : RingState.step mask a s = some s') : RingInv mask s' := by
  cases a with
  | publish x =>
      simp only [RingState.step] at hs
      split at hs
      · cases hs
        exact ⟨h.next, h.head, h.slots, trivial, h.reader.frame rfl rfl rfl rfl rfl rfl rfl, h.bound, h.ledger⟩
      · cases hs
  | store => exact h.storeNext hk hs
  | read maxN => exact h.readHead hs
  | load => exact h.loadNext hs
  | consume n =>
      simp only [RingState.step] at hs
      cases hpc : s.reader with
      | idle => rw [hpc] at hs; cases hs
      | copying c => rw [hpc] at hs; cases hs
      | returned batch =>
          rw [hpc] at hs
          have hr : ReturnedHolds s batch := by have := h.reader; rwa [ReaderHolds, hpc] at this
          simp only at hs
          split at hs
          · cases hs
            have hb := hr.bound
            have hled := h.ledger
            exact ⟨h.next, h.head, h.slots, h.writer, trivial, by simp only; omega, by simp only; omega⟩
          · cases hs

theorem ringInv_reachable {mask k : Nat} (hk : mask + 1 = 2 ^ k) {s : RingState}
    (hs : (ringSystem mask).Reachable s) : RingInv mask s :=
  hs.invariant (I := RingInv mask) (fun _ h => ringInv_init h) fun _ _ _ h h' => h.step hk h'

/-- A call that copied something returns what `ringRead` returns for the two heads it loaded. -/
theorem loadNext_eq_ringRead {mask k : Nat} (hk : mask + 1 = 2 ^ k) {s s' : RingState}
    (hs : (ringSystem mask).Reachable s) {c : Copy} (hc : s.reader = .copying c) {batch : List Sample}
    (hstep : s.loadNext mask = some s') (hb : s'.reader = .returned batch) :
    ReadResult.mk s'.cursor batch (s'.lost - s.lost) =
      ringRead (fun i => s.published.getD i default) mask c.h s.head s.cursor c.maxN := by
  have h := ringInv_reachable hk hs
  have hcopy : CopyHolds mask s c := by have := h.reader; rwa [ReaderHolds, hc] at this
  have hret : ReturnedHolds s' batch := by
    have := (h.loadNext hstep).reader
    rwa [ReaderHolds, hb] at this
  have hdone : ¬ c.i < c.stop := by
    intro hlt
    simp only [RingState.loadNext, hc, hlt, if_true] at hstep
    cases hl : c.loaded <;> rw [hl] at hstep <;> cases hstep <;> cases hb
  simp only [RingState.loadNext, hc, hdone, if_false, Option.some.injEq] at hstep
  subst hstep
  injection hb with hb
  obtain ⟨hcur, hstop, hss⟩ := hcopy.bounds
  have hrange := hcopy.range
  have hlen := hcopy.length
  simp only [ringRead, hcopy.nonempty, if_false, ← hcopy.start, ← hcopy.stop, ReadResult.mk.injEq,
    true_and]
  set first := readFirst (firstIntact s.head mask) c.start c.stop with hfirst
  have hbetween : c.start ≤ first ∧ first ≤ c.stop := by
    unfold readFirst at hfirst
    split at hfirst
    · split at hfirst <;> omega
    · omega
  have hblen : batch.length = c.stop - first := by
    rw [← hb, List.length_drop]
    omega
  refine ⟨?_, by omega⟩
  apply List.ext_getElem
  · rw [List.length_map, List.length_range, hblen]
  · intro j hj _
    have hpub := hret.published j batch[j] (List.getElem?_eq_getElem hj)
    simp only [List.getElem_map, List.getElem_range]
    rw [List.getD_eq_getElem?_getD, hpub, Option.getD_some]

/-- In every interleaving, at any moment: a batch handed out is the published samples from the cursor on, each of
them whole; the call that returned it moved the cursor by exactly what it added to `lost`; and the cursor has
moved by what was consumed and lost, never past the head. -/
theorem ringRead_whole {mask k : Nat} (hk : mask + 1 = 2 ^ k) {s : RingState}
    (hs : (ringSystem mask).Reachable s) :
    (∀ batch, s.reader = .returned batch →
      (∀ j x, batch[j]? = some x → s.published[s.cursor + j]? = some x) ∧
      s.callCursor ≤ s.cursor ∧ s.callLost ≤ s.lost ∧
      s.cursor - s.callCursor = s.lost - s.callLost) ∧
    s.consumed + s.lost = s.cursor - s.initial ∧ s.initial ≤ s.cursor ∧ s.cursor ≤ s.head ∧
    s.head = s.published.length := by
  have h := ringInv_reachable hk hs
  have hled := h.ledger
  refine ⟨fun batch hb => ?_, by omega, by omega, h.bound, h.head⟩
  have hr := h.reader
  rw [ReaderHolds, hb] at hr
  exact ⟨hr.published, hr.call⟩

def emptyRing : RingState :=
  ⟨fun _ => default, 0, 0, .idle, .idle, 0, 0, [], 0, 0, 0, 0⟩

def numbered (n : UInt64) : Sample := ⟨n, 1, makeEvent kBeginStep n.toUInt32⟩

def publishAll (ns : List UInt64) : List RingAction :=
  ns.flatMap fun n => .publish (numbered n) :: List.replicate 4 .store

/-- On a ring of four slots the writer overtakes the read of the first three samples: the first slot is written again
after it was copied, the second while it is. -/
def lappedRead : List RingAction :=
  publishAll [0, 1, 2] ++ .read 8 :: List.replicate 4 .load ++ publishAll [3, 4] ++
    .publish (numbered 5) :: List.replicate 3 .store ++ List.replicate 6 .load

/-- Both are dropped, and the third comes out whole. -/
theorem ringRead_whole_lappedRead :
    ∃ s : RingState, s.reader = .returned [numbered 2] ∧ s.published[s.cursor]? = some (numbered 2) ∧
      s.cursor - s.callCursor = s.lost - s.callLost ∧ s.lost = 2 ∧ s.consumed + s.lost = s.cursor - s.initial := by
  have hinit : RingInit 3 emptyRing :=
    ⟨rfl, rfl, rfl, rfl, fun i x hi => by simp [emptyRing] at hi, Nat.le_refl _, rfl, rfl, rfl⟩
  have hrun : ((ringSystem 3).run lappedRead emptyRing).map (fun s => (s.reader, s.lost)) =
      some (.returned [numbered 2], 2) := by
    decide +kernel
  obtain ⟨s, hs, hend⟩ := Option.map_eq_some_iff.mp hrun
  rw [Prod.mk.injEq] at hend
  obtain ⟨hreader, hlost⟩ := hend
  have h := ringRead_whole (k := 2) rfl ((System.Reachable.init hinit).run hs)
  obtain ⟨hpublished, -, -, hcall⟩ := h.1 _ hreader
  exact ⟨s, hreader, hpublished 0 _ rfl, hcall, hlost, h.2.1⟩

end SlickPerfmon
